import AlNiCo.Library.LinkedSegment
import AlNiCo.Library.Machine
import Mathlib.Data.List.Forall2
import Mathlib.Data.List.Perm.Subperm

/-! The callbacks that wait for an epoch (TRcu.hh, TRcu.cc): groups of elements in a linked list, a
marker before the callbacks of an epoch, and a cleaning that runs callbacks, which may add others,
and hooks the emptied groups in again behind the current one. -/
namespace AlNiCo.Sto.Rcu
open Library Library.LinkedSegment Function List Option

abbrev Epoch : Type := BitVec 64

section
variable {C : Type}

/-- A null function marks an epoch; every other element is a function with its argument. -/
inductive Element (C : Type)
  | marker (epoch : Epoch)
  | callback (c : C)

structure Group (C : Type) where
  head : Nat
  tail : Nat
  capacity : Nat
  epoch : Epoch
  next : Option Nat
  e : Nat → Element C

/-- A new group; its epoch and its elements are not set before they are read. -/
def Group.make (capacity : Nat) : Group C := ⟨0,0,capacity,0,none,fun _ => .marker 0⟩

def Group.push (g : Group C) (x : Element C) : Group C :=
  { g with e := update g.e g.tail x, tail := g.tail+1 }

def Group.add (g : Group C) (epoch : Epoch) (c : C) : Group C :=
  let g := if g.head = g.tail ∨ g.epoch ≠ epoch then { g.push (.marker epoch) with epoch := epoch } else g
  g.push (.callback c)

/-- `signed_epoch_type(max_epoch - epoch) > 0` -/
def Passed (maxEpoch epoch : Epoch) : Prop := 0 < (maxEpoch-epoch).toInt

instance (maxEpoch epoch : Epoch) : Decidable (Passed maxEpoch epoch) := inferInstanceAs (Decidable (0 < (maxEpoch-epoch).toInt))

structure RcuSet (C : Type) where
  heap : Nat → Group C
  ngroups : Nat
  current : Nat
  first : Nat
  cleanEpoch : Epoch

namespace RcuSet

/-- (4080 - sizeof(TRcuGroup)) / sizeof(TRcuElement), with sizes 48 and 16. -/
def firstCapacity : Nat := (4080-48)/16

def growCapacity : Nat := (16368-48)/16

def make : RcuSet C := ⟨fun _ => Group.make firstCapacity,1,0,0,0⟩

def set (s : RcuSet C) (a : Nat) (g : Group C) : RcuSet C := { s with heap := update s.heap a g }

def grow (s : RcuSet C) : RcuSet C :=
  match (s.heap s.current).next with
  | some n => { s with current := n }
  | none =>
    let s' := (s.set s.current { s.heap s.current with next := some s.ngroups }).set s.ngroups (Group.make growCapacity)
    { s' with ngroups := s.ngroups+1, current := s.ngroups }

/-- Nothing when an assertion of `grow` or `TRcuGroup::add` fails. -/
def add (s : RcuSet C) (epoch : Epoch) (c : C) : Option (RcuSet C) :=
  let full := (s.heap s.current).capacity < (s.heap s.current).tail+2
  let s' := if full then s.grow else s
  let g := s'.heap s'.current
  if full ∧ ¬ (g.head = 0 ∧ g.tail = 0) then none
  else if g.tail+2 ≤ g.capacity then some (s'.set s'.current (g.add epoch c))
  else none

/-- `TRcuSet::check` from a group on: whether its assertions hold. -/
def checkFrom (s : RcuSet C) : Nat → Option Nat → Bool → Bool
  | _,none,foundCurrent => foundCurrent
  | 0,some _,_ => false
  | n+1,some a,foundCurrent =>
    let g := s.heap a
    decide (g.head ≤ g.tail) && decide (g.tail ≤ g.capacity) &&
      (if foundCurrent then decide (g.head = 0 ∧ g.tail = 0) else decide (a ≠ s.current → g.head ≠ g.tail)) &&
      s.checkFrom n g.next (foundCurrent || decide (a = s.current))

def check (s : RcuSet C) (n : Nat) : Bool := s.checkFrom n (some s.first) false

end RcuSet

end

section
variable {C : Type}

/-- Where `clean_until` is: at the outer loop of a group's cleaning, at its inner loop, or inside a
callback; with the epoch and the emptied groups of `hard_clean_until`. -/
inductive Pc (C : Type)
  | idle
  | cleaning (maxEpoch : Epoch) (emptyHead emptyTail : Option Nat)
  | draining (maxEpoch : Epoch) (emptyHead emptyTail : Option Nat)
  | calling (maxEpoch : Epoch) (emptyHead emptyTail : Option Nat) (c : C)

/-- The set, with the callbacks that were added and those that were run, and in which cleaning. -/
structure State (C : Type) where
  set : RcuSet C
  pc : Pc C
  added : List (Epoch × C)
  ran : List (Epoch × C)

inductive Act (C : Type)
  | add (epoch : Epoch) (c : C)
  | cleanUntil (maxEpoch : Epoch)
  | go

namespace RcuSet

def emptied (s : RcuSet C) : RcuSet C := s.set s.first { s.heap s.first with head := 0, tail := 0 }

def headUp (s : RcuSet C) : RcuSet C := s.set s.first { s.heap s.first with head := (s.heap s.first).head+1 }

def hook (s : RcuSet C) : Option Nat → Option Nat → RcuSet C
  | some emptyHead,some emptyTail =>
    let s := s.set emptyTail { s.heap emptyTail with next := (s.heap s.current).next }
    s.set s.current { s.heap s.current with next := some emptyHead }
  | _,_ => s

end RcuSet

namespace State

def finish (s : State C) (set : RcuSet C) (maxEpoch : Epoch) : State C :=
  { s with set := { set with cleanEpoch := maxEpoch }, pc := .idle }

/-- The next step of a cleaning. Nothing when it would read a null pointer, or a callback as a marker. -/
def go (s : State C) : Option (State C) :=
  let g := s.set.heap s.set.first
  match s.pc with
  | .idle => none
  | .cleaning m emptyHead emptyTail =>
    if g.head ≠ g.tail then
      match g.e g.head with
      | .callback _ => none
      | .marker epoch =>
        if Passed m epoch then some { s with set := s.set.headUp, pc := .draining m emptyHead emptyTail }
        else some (s.finish (s.set.hook emptyHead emptyTail) m)
    else
      let set := s.set.emptied
      let emptyHead := emptyHead.getD s.set.first
      if s.set.first = s.set.current then some (s.finish { set with first := emptyHead, current := emptyHead } m)
      else match g.next with
        | none => none
        | some n => some { s with set := { set with first := n }, pc := .cleaning m (some emptyHead) (some s.set.first) }
  | .draining m emptyHead emptyTail =>
    if g.head ≠ g.tail then
      match g.e g.head with
      | .callback c => some { s with pc := .calling m emptyHead emptyTail c, ran := s.ran ++ [(m,c)] }
      | .marker _ => some { s with pc := .cleaning m emptyHead emptyTail }
    else some { s with pc := .cleaning m emptyHead emptyTail }
  | .calling m emptyHead emptyTail _ => some { s with set := s.set.headUp, pc := .draining m emptyHead emptyTail }

/-- A caller adds between the cleanings, a callback while it runs. -/
def canAdd (s : State C) : Bool :=
  match s.pc with
  | .idle | .calling .. => true
  | _ => false

def next (s : State C) : Act C → Option (State C)
  | .add epoch c => if s.canAdd then (s.set.add epoch c).map (fun set => { s with set := set, added := s.added ++ [(epoch,c)] }) else none
  | .cleanUntil maxEpoch =>
    match s.pc with
    | .idle => if s.set.cleanEpoch ≠ maxEpoch then some { s with pc := .cleaning maxEpoch none none } else some (s.finish s.set maxEpoch)
    | _ => none
  | .go => s.go

end State

def machine (C : Type) : Machine (State C) (Act C) := .ofNext ⟨RcuSet.make,.idle,[],[]⟩ State.next

end

section Contents
variable {C : Type} {g : Group C}

def Group.content (g : Group C) : List (Element C) := (List.range' g.head (g.tail-g.head)).map g.e

/-- The callbacks of a list of elements with their epochs, when `epoch` was marked last before it. -/
def decode : Epoch → List (Element C) → List (Epoch × C)
  | _,[] => []
  | _,.marker epoch :: l => decode epoch l
  | epoch,.callback c :: l => (epoch,c) :: decode epoch l

def lastEpoch : Epoch → List (Element C) → Epoch
  | epoch,[] => epoch
  | _,.marker epoch :: l => lastEpoch epoch l
  | epoch,.callback _ :: l => lastEpoch epoch l

/-- The callbacks that wait, from the first group to the current one. -/
def RcuSet.pending (s : RcuSet C) : List (Epoch × C) :=
  (walk (fun a => (s.heap a).next) s.ngroups (some s.first)).flatMap (fun a => decode 0 (s.heap a).content)

theorem decode_append (epoch : Epoch) (l l' : List (Element C)) :
    decode epoch (l ++ l') = decode epoch l ++ decode (lastEpoch epoch l) l' := by
  induction l generalizing epoch with
  | nil => rfl
  | cons x l ih =>
    cases x with
    | marker epoch' => exact ih epoch'
    | callback c => exact congrArg (List.cons (epoch,c)) (ih epoch)

theorem lastEpoch_append (epoch : Epoch) (l l' : List (Element C)) : lastEpoch epoch (l ++ l') = lastEpoch (lastEpoch epoch l) l' := by
  induction l generalizing epoch with
  | nil => rfl
  | cons x l ih =>
    cases x with
    | marker epoch' => exact ih epoch'
    | callback c => exact ih epoch

theorem Group.content_eq_nil (h : g.head = g.tail) : g.content = [] := by
  rw [content,h,Nat.sub_self]
  rfl

theorem Group.content_eq_cons (h : g.head < g.tail) : g.content = g.e g.head :: { g with head := g.head+1 }.content := by
  rw [content,content,show g.tail-g.head = g.tail-(g.head+1)+1 by omega]
  rfl

theorem Group.content_push (h : g.head ≤ g.tail) (x : Element C) : (g.push x).content = g.content ++ [x] := by
  have hrange : range' g.head (g.tail+1-g.head) = range' g.head (g.tail-g.head) ++ [g.tail] := by
    rw [Nat.sub_add_comm h,range'_concat,Nat.one_mul,Nat.add_sub_cancel' h]
  rw [content,content,push]
  dsimp only
  rw [hrange,map_append,map_singleton,update_self]
  congr 1
  refine map_congr_left (fun i hi => update_of_ne ?_ _ _)
  have hlt := (mem_range'_1.mp hi).2
  omega

/-- A callback follows on every marker. -/
def Paired : List (Element C) → Prop
  | [] => True
  | .callback _ :: l => Paired l
  | .marker _ :: .callback _ :: l => Paired l
  | .marker _ :: _ => False

theorem Paired.append {l l' : List (Element C)} (h : Paired l) (h' : Paired l') : Paired (l ++ l') := by
  fun_induction Paired l with
  | case1 => exact h'
  | case2 c l ih => exact ih h
  | case3 epoch c l ih => exact ih h
  | case4 epoch l hne => exact h.elim

/-- The first callback after a marker has its epoch. -/
theorem Paired.decode_head? {epoch : Epoch} {l : List (Element C)} (h : Paired (.marker epoch :: l)) (epoch' : Epoch) :
    ∃ c l', l = .callback c :: l' ∧ decode epoch' (.marker epoch :: l) = (epoch,c) :: decode epoch l' := by
  cases l with
  | nil => exact h.elim
  | cons x l =>
    cases x with
    | marker epoch'' => exact h.elim
    | callback c => exact ⟨c,l,rfl,rfl⟩

theorem Paired.tail {x : Element C} {l : List (Element C)} (h : Paired (x :: l)) : Paired l := by
  cases x with
  | callback c => exact h
  | marker epoch =>
    obtain ⟨c,l',rfl,-⟩ := h.decode_head? 0
    exact h

structure Group.Ok (epoch : Epoch) (g : Group C) : Prop where
  le : g.head ≤ g.tail
  fits : g.tail ≤ g.capacity
  last : g.head ≠ g.tail → g.epoch = lastEpoch epoch g.content
  paired : Paired g.content

def Group.Starts (g : Group C) : Prop := g.head ≠ g.tail → ∃ epoch, g.e g.head = .marker epoch

/-- From a marker on, what was marked before does not matter. -/
theorem Group.Starts.decode_eq (h : g.Starts) (hle : g.head ≤ g.tail) (epoch epoch' : Epoch) :
    decode epoch g.content = decode epoch' g.content ∧ (g.Ok epoch → g.Ok epoch') := by
  by_cases hne : g.head = g.tail
  · rw [content_eq_nil hne]
    exact ⟨rfl,fun hok => ⟨hok.le,hok.fits,fun h => absurd hne h,hok.paired⟩⟩
  · obtain ⟨marked,hmark⟩ := h hne
    have hcons := content_eq_cons (lt_of_le_of_ne hle hne)
    rw [hmark] at hcons
    refine ⟨by rw [hcons]; rfl,fun hok => ⟨hok.le,hok.fits,fun h => (hok.last h).trans ?_,hok.paired⟩⟩
    rw [hcons]
    rfl

section
variable {epoch : Epoch} {at' : Epoch} {c : C}

theorem Group.content_add (h : g.head ≤ g.tail) : (g.add at' c).content =
    g.content ++ (if g.head = g.tail ∨ g.epoch ≠ at' then [.marker at',.callback c] else [.callback c]) := by
  rw [add]
  dsimp only
  by_cases hmark : g.head = g.tail ∨ g.epoch ≠ at'
  · rw [if_pos hmark,if_pos hmark,content_push (Nat.le_succ_of_le h)]
    have hpush : ({ g.push (.marker at') with epoch := at' } : Group C).content = g.content ++ [.marker at'] := content_push h _
    rw [hpush,append_assoc]
    rfl
  · rw [if_neg hmark,if_neg hmark,content_push h]

/-- The new callback waits last, with its epoch. -/
theorem Group.decode_add (h : g.Ok epoch) : decode epoch (g.add at' c).content = decode epoch g.content ++ [(at',c)] := by
  rw [content_add h.le,decode_append]
  by_cases hmark : g.head = g.tail ∨ g.epoch ≠ at'
  · rw [if_pos hmark]
    rfl
  · rw [not_or,not_not] at hmark
    rw [if_neg (not_or.mpr ⟨hmark.1,not_not.mpr hmark.2⟩),← h.last hmark.1,hmark.2]
    rfl

theorem Group.add_fields (g : Group C) (at' : Epoch) (c : C) : (g.add at' c).head = g.head ∧ (g.add at' c).next = g.next ∧
    (g.add at' c).capacity = g.capacity ∧ g.tail < (g.add at' c).tail ∧ (g.add at' c).tail ≤ g.tail+2 ∧ (g.add at' c).epoch = at' := by
  rw [add]
  by_cases hmark : g.head = g.tail ∨ g.epoch ≠ at'
  · rw [if_pos hmark]
    exact ⟨rfl,rfl,rfl,Nat.lt_succ_of_lt (Nat.lt_succ_self _),le_rfl,rfl⟩
  · rw [if_neg hmark]
    exact ⟨rfl,rfl,rfl,Nat.lt_succ_self _,Nat.le_succ _,not_not.mp (not_or.mp hmark).2⟩

theorem Group.Ok.add (h : g.Ok epoch) (hroom : g.tail+2 ≤ g.capacity) : (g.add at' c).Ok epoch := by
  obtain ⟨hhead,-,hcap,hlt,hle,hepoch⟩ := g.add_fields at' c
  refine ⟨?_,?_,fun _ => ?_,?_⟩
  · rw [hhead]
    exact h.le.trans hlt.le
  · rw [hcap]
    exact hle.trans hroom
  · rw [hepoch,content_add h.le,lastEpoch_append]
    by_cases hmark : g.head = g.tail ∨ g.epoch ≠ at'
    · rw [if_pos hmark]
      rfl
    · rw [if_neg hmark]
      rw [not_or,not_not] at hmark
      exact hmark.2.symm.trans (h.last hmark.1)
  · rw [content_add h.le]
    refine h.paired.append ?_
    split
    · trivial
    · trivial

theorem Group.add_head (h : g.head ≤ g.tail) (hne : g.head ≠ g.tail) : (g.add at' c).e g.head = g.e g.head := by
  rw [add]
  by_cases hmark : g.head = g.tail ∨ g.epoch ≠ at'
  · rw [if_pos hmark]
    dsimp only [push]
    rw [update_of_ne (by omega),update_of_ne hne]
  · rw [if_neg hmark]
    dsimp only [push]
    exact update_of_ne hne _ _

theorem Group.Starts.add (h : g.Starts) (hle : g.head ≤ g.tail) : (g.add at' c).Starts := by
  intro _
  rw [(g.add_fields at' c).1]
  by_cases hne : g.head = g.tail
  · refine ⟨at',?_⟩
    rw [Group.add,if_pos (.inl hne),hne]
    dsimp only [push]
    rw [update_of_ne (by omega),update_self]
  · rw [Group.add_head hle hne]
    exact h hne

end

end Contents

open RcuSet

section Lists
variable {C : Type} {s : RcuSet C} {emptyHead emptyTail : Option Nat} {D L S : List Nat} {epoch : Epoch}

def RcuSet.next (s : RcuSet C) (a : Nat) : Option Nat := (s.heap a).next

/-- A store keeps what it does not change in its own group. -/
theorem heap_set {β} (f : Group C → β) {a g} (hg : f g = f (s.heap a)) (b : Nat) : f ((s.set a g).heap b) = f (s.heap b) := by
  change f (update s.heap a g b) = f (s.heap b)
  by_cases hb : b = a
  · rw [hb,update_self,hg]
  · rw [update_of_ne hb]

/-- The groups that this cleaning has emptied, those in front of the current one, and those behind it. -/
structure Shape (s : RcuSet C) (emptyHead emptyTail : Option Nat) (D L S : List Nat) : Prop where
  head : emptyHead = D.head?
  emptied : Seg s.next (some (emptyHead.getD s.first)) D (some s.first)
  live : Seg s.next (some s.first) L (some s.current)
  spare : Seg s.next (s.next s.current) S none
  last : emptyTail = D.getLast?
  nodup : (D ++ L ++ s.current :: S).Nodup
  alloc : ∀ a ∈ D ++ L ++ s.current :: S, a < s.ngroups ∧ 2 ≤ (s.heap a).capacity
  blank : ∀ a ∈ D ++ S, (s.heap a).head = 0 ∧ (s.heap a).tail = 0

/-- A group in front of which cleaning has not yet come. -/
structure Group.Waits (g : Group C) : Prop where
  ok : g.Ok 0
  starts : g.Starts
  nonempty : g.head ≠ g.tail

structure Live (s : RcuSet C) (epoch : Epoch) (L : List Nat) : Prop where
  first : (s.heap s.first).Ok epoch
  rest : ∀ a ∈ (L ++ [s.current]).tail, (s.heap a).Waits

def waiting (heap : Nat → Group C) (epoch : Epoch) : List Nat → List (Epoch × C)
  | [] => []
  | a :: l => decode epoch (heap a).content ++ l.flatMap (fun b => decode 0 (heap b).content)

theorem waiting_concat (heap : Nat → Group C) (epoch : Epoch) (l : List Nat) (hl : l ≠ []) (a : Nat) :
    waiting heap epoch (l ++ [a]) = waiting heap epoch l ++ decode 0 (heap a).content := by
  cases l with
  | nil => exact absurd rfl hl
  | cons b l =>
    rw [cons_append,waiting,waiting,flatMap_append,append_assoc,flatMap_singleton]

theorem waiting_congr {heap heap' : Nat → Group C} {l : List Nat} (h : ∀ a ∈ l, (heap' a).content = (heap a).content) :
    waiting heap' epoch l = waiting heap epoch l := by
  cases l with
  | nil => rfl
  | cons a l =>
    rw [waiting,waiting,h a mem_cons_self]
    congr 1
    rw [flatMap_def,flatMap_def]
    congr 1
    exact map_congr_left (fun b hb => congrArg (decode 0) (h b (mem_cons_of_mem a hb)))

section
variable (h : Shape s emptyHead emptyTail D L S)
include h

theorem Shape.head_eq : ∃ l, L ++ [s.current] = s.first :: l := by
  cases hL : L with
  | nil =>
    have hlive := hL ▸ h.live
    exact ⟨[],by rw [some.inj hlive]; rfl⟩
  | cons a l =>
    have hlive := hL ▸ h.live
    exact ⟨l ++ [s.current],by rw [some.inj hlive.1]; rfl⟩

theorem Shape.first_eq (hL : L = []) : s.first = s.current := some.inj (hL ▸ h.live :)

theorem Shape.eq_nil (heq : s.first = s.current) : L = [] := by
  cases hL : L with
  | nil => rfl
  | cons a l =>
    have hlive := hL ▸ h.live
    have hnodup := h.nodup
    have hmem : s.current ∈ L := by
      rw [hL,← heq,some.inj hlive.1]
      exact mem_cons_self
    rw [append_assoc,nodup_append] at hnodup
    exact absurd rfl ((nodup_append.mp hnodup.2.1).2.2 s.current hmem s.current mem_cons_self)

theorem Shape.length_le : (D ++ L ++ s.current :: S).length ≤ s.ngroups := by
  have hsub : D ++ L ++ s.current :: S ⊆ range s.ngroups := fun a ha => mem_range.mpr (h.alloc a ha).1
  have hle := (subperm_of_subset h.nodup hsub).length_le
  rwa [length_range] at hle

end

/-- The same groups, but for what the groups hold. -/
theorem Shape.of_next {s'} (h : Shape s emptyHead emptyTail D L S) (hfirst : s'.first = s.first) (hcurrent : s'.current = s.current)
    (hgroups : s'.ngroups = s.ngroups) (hnext : ∀ a, s'.next a = s.next a) (hcap : ∀ a, (s'.heap a).capacity = (s.heap a).capacity)
    (hblank : ∀ a ∈ D ++ S, s'.heap a = s.heap a) : Shape s' emptyHead emptyTail D L S := by
  have hfun : s'.next = s.next := funext hnext
  refine ⟨h.head,?_,?_,?_,h.last,?_,?_,?_⟩
  · rw [hfun,hfirst]
    exact h.emptied
  · rw [hfun,hfirst,hcurrent]
    exact h.live
  · rw [hfun,hcurrent]
    exact h.spare
  · rw [hcurrent]
    exact h.nodup
  · intro a ha
    rw [hgroups,hcap]
    exact h.alloc a (hcurrent ▸ ha)
  · intro a ha
    rw [hblank a ha]
    exact h.blank a ha

/-- Where the current group is not. -/
theorem Shape.current_notMem (h : Shape s emptyHead emptyTail D L S) : s.current ∉ D ++ L ∧ s.current ∉ S := by
  obtain ⟨-,hnodup,hdisj⟩ := nodup_append.mp h.nodup
  exact ⟨fun hm => hdisj s.current hm s.current mem_cons_self rfl,(nodup_cons.mp hnodup).1⟩

theorem Shape.addCurrent (h : Shape s emptyHead emptyTail D L S) (at' : Epoch) (c : C) :
    Shape (s.set s.current ((s.heap s.current).add at' c)) emptyHead emptyTail D L S := by
  obtain ⟨-,hnext,hcap,-⟩ := (s.heap s.current).add_fields at' c
  obtain ⟨hD,hS⟩ := h.current_notMem
  refine h.of_next rfl rfl rfl (heap_set Group.next hnext) (heap_set Group.capacity hcap) (fun a ha => update_of_ne ?_ _ _)
  rintro rfl
  rcases mem_append.mp ha with ha | ha
  · exact hD (mem_append_left L ha)
  · exact hS ha

/-- The current group joins the live ones, and an empty one is current. -/
def Grown (s : RcuSet C) (emptyHead emptyTail : Option Nat) (D L : List Nat) : Prop :=
  ∃ S', Shape s.grow emptyHead emptyTail D (L ++ [s.current]) S' ∧
    s.grow.first = s.first ∧ (∀ a ∈ L ++ [s.current], ∃ n, s.grow.heap a = { s.heap a with next := n }) ∧
    (s.grow.heap s.grow.current).head = 0 ∧ (s.grow.heap s.grow.current).tail = 0

private theorem Shape.grow_spare {n} (h : Shape s emptyHead emptyTail D L S) (hnext : (s.heap s.current).next = some n) :
    Grown s emptyHead emptyTail D L := by
  have hgrow : s.grow = { s with current := n } := by
    rw [grow,hnext]
  have hspare : Seg s.next (some n) S none := hnext ▸ h.spare
  cases S with
  | nil => exact absurd hspare (some_ne_none n)
  | cons b S' =>
    obtain ⟨hb,hspare⟩ := hspare
    obtain rfl := some.inj hb
    have hlist : D ++ (L ++ [s.current]) ++ n :: S' = D ++ L ++ s.current :: n :: S' := by
      rw [← append_assoc,append_assoc (D ++ L)]
      rfl
    rw [Grown,hgrow]
    refine ⟨S',⟨h.head,h.emptied,seg_concat.mpr ⟨h.live,hnext⟩,hspare,h.last,?_,?_,?_⟩,rfl,fun a _ => ⟨_,rfl⟩,?_⟩
    · rw [hlist]
      exact h.nodup
    · rw [hlist]
      exact h.alloc
    · intro a ha
      apply h.blank
      rcases mem_append.mp ha with ha | ha
      · exact mem_append_left _ ha
      · exact mem_append_right _ (mem_cons_of_mem n ha)
    · exact h.blank n (mem_append_right _ mem_cons_self)

private theorem Shape.grow_new (h : Shape s emptyHead emptyTail D L S) (hnext : (s.heap s.current).next = none) :
    Grown s emptyHead emptyTail D L := by
  have hspare : Seg s.next none S none := hnext ▸ h.spare
  cases S with
  | cons b S' => exact absurd hspare.1.symm (some_ne_none b)
  | nil =>
    -- the new group is none of the old ones
    have hnew (a : Nat) (ha : a ∈ D ++ L ++ [s.current]) : a ≠ s.ngroups := Nat.ne_of_lt (h.alloc a ha).1
    have hcur : s.current ∉ D ++ L := h.current_notMem.1
    have hheap : s.grow.heap = update (update s.heap s.current { s.heap s.current with next := some s.ngroups })
        s.ngroups (Group.make growCapacity) := by
      rw [grow,hnext]
      rfl
    have hfields : s.grow.first = s.first ∧ s.grow.current = s.ngroups ∧ s.grow.ngroups = s.ngroups+1 := by
      rw [grow,hnext]
      exact ⟨rfl,rfl,rfl⟩
    have hold (a : Nat) (ha : a ∈ D ++ L) : s.grow.heap a = s.heap a := by
      rw [hheap,update_of_ne (hnew a (mem_append_left _ ha)),update_of_ne]
      rintro rfl
      exact hcur ha
    have hcurrent : s.grow.heap s.current = { s.heap s.current with next := some s.ngroups } := by
      rw [hheap,update_of_ne (hnew s.current (mem_append_right _ mem_cons_self)),update_self]
    have hmade : s.grow.heap s.ngroups = Group.make growCapacity := by
      rw [hheap,update_self]
    have hnext' (a : Nat) (ha : a ∈ D ++ L) : s.grow.next a = s.next a := congrArg Group.next (hold a ha)
    rw [Grown,hfields.2.1]
    refine ⟨[],⟨h.head,?_,?_,?_,h.last,?_,?_,?_⟩,hfields.1,?_,by rw [hmade]; rfl,by rw [hmade]; rfl⟩
    · rw [hfields.1]
      exact h.emptied.congr (fun a ha => hnext' a (mem_append_left L ha))
    · rw [hfields.1,hfields.2.1,seg_concat]
      exact ⟨h.live.congr (fun a ha => hnext' a (mem_append_right D ha)),congrArg Group.next hcurrent⟩
    · rw [hfields.2.1]
      exact congrArg Group.next hmade
    · rw [hfields.2.1,← append_assoc,nodup_append]
      refine ⟨h.nodup,nodup_singleton _,fun a ha b hb => ?_⟩
      rw [mem_singleton.mp hb]
      exact hnew a ha
    · intro a ha
      rw [hfields.2.1,← append_assoc] at ha
      rw [hfields.2.2]
      rcases mem_append.mp ha with ha | ha
      · refine ⟨Nat.lt_succ_of_lt (h.alloc a ha).1,?_⟩
        rcases mem_append.mp ha with hDL | hcur'
        · rw [hold a hDL]
          exact (h.alloc a ha).2
        · rw [mem_singleton.mp hcur',hcurrent]
          exact (h.alloc s.current (mem_append_right _ mem_cons_self)).2
      · rw [mem_singleton.mp ha,hmade]
        exact ⟨Nat.lt_succ_self _,(by decide : 2 ≤ growCapacity)⟩
    · intro a ha
      rw [append_nil] at ha
      rw [hold a (mem_append_left L ha)]
      exact h.blank a (mem_append_left _ ha)
    · intro a ha
      rcases mem_append.mp ha with ha | ha
      · exact ⟨_,hold a (mem_append_right D ha)⟩
      · rw [mem_singleton.mp ha]
        exact ⟨_,hcurrent⟩

/-- The group behind the current one, or a new one, becomes the current group. -/
theorem Shape.grow (h : Shape s emptyHead emptyTail D L S) : Grown s emptyHead emptyTail D L := by
  cases hnext : (s.heap s.current).next with
  | some n => exact h.grow_spare hnext
  | none => exact h.grow_new hnext

/-- The groups in front of the current one stay, and the current one takes the callback. -/
theorem Live.addCurrent (epoch : Epoch) (h : Shape s emptyHead emptyTail D L S) (hfirst : L = [] → (s.heap s.first).Ok epoch)
    (hlive : L ≠ [] → (s.heap s.first).Ok epoch ∧ (∀ a ∈ L.tail, (s.heap a).Waits) ∧ (s.heap s.current).Ok 0 ∧ (s.heap s.current).Starts)
    (at' : Epoch) (c : C) (hroom : (s.heap s.current).tail+2 ≤ (s.heap s.current).capacity) :
    Live (s.set s.current ((s.heap s.current).add at' c)) epoch L ∧
      waiting (s.set s.current ((s.heap s.current).add at' c)).heap epoch (L ++ [s.current]) =
        waiting s.heap epoch (L ++ [s.current]) ++ [(at',c)] := by
  have hself : (s.set s.current ((s.heap s.current).add at' c)).heap s.current = (s.heap s.current).add at' c :=
    update_self s.current _ _
  cases hL : L with
  | nil =>
    have heq := h.first_eq hL
    have hok := hfirst hL
    rw [heq] at hok
    refine ⟨⟨?_,fun a ha => absurd ha not_mem_nil⟩,?_⟩
    · rw [show (s.set s.current ((s.heap s.current).add at' c)).first = s.current from heq,hself]
      exact hok.add hroom
    · rw [nil_append,waiting,waiting,hself,Group.decode_add hok]
      simp only [flatMap_nil,append_nil]
  | cons a l =>
    obtain ⟨hok,hrest,hcok,hstarts⟩ := hlive (hL ▸ cons_ne_nil a l)
    have hcur : s.current ∉ L := fun hm => h.current_notMem.1 (mem_append_right D hm)
    have hother (b : Nat) (hb : b ∈ L) : (s.set s.current ((s.heap s.current).add at' c)).heap b = s.heap b := by
      refine update_of_ne ?_ _ _
      rintro rfl
      exact hcur hb
    have hfirstL : s.first ∈ L := by
      have hlive := hL ▸ h.live
      rw [some.inj hlive.1,hL]
      exact mem_cons_self
    obtain ⟨hhead,-,-,hlt,-⟩ := (s.heap s.current).add_fields at' c
    rw [← hL]
    refine ⟨⟨?_,fun b hb => ?_⟩,?_⟩
    · rw [show (s.set s.current ((s.heap s.current).add at' c)).first = s.first from rfl,hother s.first hfirstL]
      exact hok
    · have hb' : b ∈ L.tail ∨ b = s.current := by
        rw [hL] at hb ⊢
        exact (mem_append.mp hb).imp_right mem_singleton.mp
      rcases hb' with hb | hb
      · rw [hother b (mem_of_mem_tail hb)]
        exact hrest b hb
      · rw [hb,hself]
        exact ⟨hcok.add hroom,hstarts.add hcok.le,by rw [hhead]; exact Nat.ne_of_lt (Nat.lt_of_le_of_lt hcok.le hlt)⟩
    · have hne : L ≠ [] := hL ▸ cons_ne_nil a l
      rw [waiting_concat _ _ _ hne,waiting_concat _ _ _ hne,hself,Group.decode_add hcok,
        waiting_congr (fun b hb => congrArg Group.content (hother b hb)),append_assoc]

theorem Group.Waits.of_next {g : Group C} (h : g.Waits) (n : Option Nat) : { g with next := n }.Waits :=
  ⟨⟨h.ok.le,h.ok.fits,h.ok.last,h.ok.paired⟩,h.starts,h.nonempty⟩

theorem Group.ok_of_blank {g : Group C} (hhead : g.head = 0) (htail : g.tail = 0) : g.Ok 0 ∧ g.Starts := by
  have heq := hhead.trans htail.symm
  refine ⟨⟨heq.le,by rw [htail]; exact Nat.zero_le _,fun h => absurd heq h,?_⟩,fun h => absurd heq h⟩
  rw [content_eq_nil heq]
  trivial

theorem Live.of_ne_nil (h : Live s epoch L) (hL : L ≠ []) : (∀ a ∈ L.tail, (s.heap a).Waits) ∧ (s.heap s.current).Waits := by
  have hrest := h.rest
  rw [tail_append_of_ne_nil hL] at hrest
  exact ⟨fun a ha => hrest a (mem_append_left _ ha),hrest s.current (mem_append_right _ mem_cons_self)⟩

theorem Shape.first_mem (h : Shape s emptyHead emptyTail D L S) : s.first ∈ L ++ [s.current] := by
  obtain ⟨l,hl⟩ := h.head_eq
  rw [hl]
  exact mem_cons_self

/-- What an `add` does: it succeeds, the callback waits last, and the first group is there with its
elements. -/
theorem add_spec (h : Shape s emptyHead emptyTail D L S) (hlive : Live s epoch L)
    (hzero : (s.heap s.first).head = (s.heap s.first).tail → (s.heap s.first).tail = 0) (at' : Epoch) (c : C) :
    ∃ s' L' S', s.add at' c = some s' ∧ Shape s' emptyHead emptyTail D L' S' ∧ Live s' epoch L' ∧ s'.first = s.first ∧
      waiting s'.heap epoch (L' ++ [s'.current]) = waiting s.heap epoch (L ++ [s.current]) ++ [(at',c)] ∧
      (s'.heap s.first = (s.heap s.first).add at' c ∨
        ((L ≠ [] ∨ (s.heap s.first).head ≠ (s.heap s.first).tail) ∧ ∃ n, s'.heap s.first = { s.heap s.first with next := n })) := by
  by_cases hfull : (s.heap s.current).capacity < (s.heap s.current).tail+2
  · obtain ⟨S',hshape,hfirst,hdata,hhead,htail⟩ := h.grow
    have hcap := (hshape.alloc s.grow.current (mem_append_right _ mem_cons_self)).2
    have hroom : (s.grow.heap s.grow.current).tail+2 ≤ (s.grow.heap s.grow.current).capacity := by
      rw [htail]
      exact hcap
    have hne : L ++ [s.current] ≠ [] := append_ne_nil_of_right_ne_nil L (cons_ne_nil _ _)
    obtain ⟨n,hn⟩ := hdata s.first h.first_mem
    obtain ⟨hblank,hstarts⟩ := Group.ok_of_blank hhead htail
    obtain ⟨hlive',hwait⟩ := Live.addCurrent epoch hshape (fun hnil => absurd hnil hne) (fun _ => by
      refine ⟨?_,fun a ha => ?_,hblank,hstarts⟩
      · rw [hfirst,hn]
        exact ⟨hlive.first.le,hlive.first.fits,hlive.first.last,hlive.first.paired⟩
      · obtain ⟨n,hn⟩ := hdata a (mem_of_mem_tail ha)
        rw [hn]
        exact (hlive.rest a ha).of_next n) at' c hroom
    refine ⟨s.grow.set s.grow.current ((s.grow.heap s.grow.current).add at' c),L ++ [s.current],S',?_,hshape.addCurrent at' c,hlive',
      hfirst,?_,.inr ⟨?_,n,?_⟩⟩
    · rw [add,if_pos hfull,if_neg (fun hand => hand.2 ⟨hhead,htail⟩),if_pos hroom]
    · have hempty : (s.grow.heap s.grow.current).content = [] := Group.content_eq_nil (hhead.trans htail.symm)
      have hsame : waiting s.grow.heap epoch (L ++ [s.current]) = waiting s.heap epoch (L ++ [s.current]) := by
        refine waiting_congr (fun a ha => ?_)
        obtain ⟨n,hn⟩ := hdata a ha
        rw [hn]
        rfl
      rw [waiting_concat s.grow.heap _ _ hne,hempty,decode,append_nil,hsame] at hwait
      exact hwait
    · -- a current group that is full is not empty
      by_cases hL : L = []
      · refine .inr (fun heq => ?_)
        have hcur := h.first_eq hL
        have hz := hzero heq
        have hcap := (h.alloc s.current (mem_append_right _ mem_cons_self)).2
        rw [hcur] at hz
        omega
      · exact .inl hL
    · refine (update_of_ne ?_ _ _).trans hn
      intro heq
      exact hshape.current_notMem.1 (heq ▸ mem_append_right D h.first_mem)
  · have hroom := Nat.le_of_not_lt hfull
    obtain ⟨hlive',hwait⟩ := Live.addCurrent epoch h (fun _ => hlive.first) (fun hL =>
      ⟨hlive.first,(hlive.of_ne_nil hL).1,(hlive.of_ne_nil hL).2.ok,(hlive.of_ne_nil hL).2.starts⟩) at' c hroom
    refine ⟨s.set s.current ((s.heap s.current).add at' c),L,S,?_,h.addCurrent at' c,hlive',rfl,hwait,?_⟩
    · rw [add,if_neg hfull,if_neg (fun hand => hfull hand.1),if_pos hroom]
    · by_cases hcur : s.first = s.current
      · refine .inl ?_
        rw [hcur]
        exact update_self s.current _ _
      · exact .inr ⟨.inl (fun hL => hcur (h.first_eq hL)),_,(update_of_ne hcur _ _ : _ = s.heap s.first)⟩

/-- The links after the empties from `b` to `t` were put behind the current group. -/
structure Hooked (s r : RcuSet C) (b t : Nat) : Prop where
  first : r.first = s.first
  current : r.current = s.current
  ngroups : r.ngroups = s.ngroups
  data : ∀ a, ∃ n, r.heap a = { s.heap a with next := n }
  ofCurrent : r.next s.current = some b
  ofLast : r.next t = s.next s.current
  other : ∀ a, a ≠ s.current → a ≠ t → r.next a = s.next a

private theorem hooked {b t} (s : RcuSet C) (hne : t ≠ s.current) : Hooked s (s.hook (some b) (some t)) b t := by
  have hheap : (s.hook (some b) (some t)).heap = update (update s.heap t { s.heap t with next := s.next s.current })
      s.current { s.heap s.current with next := some b } := by
    dsimp only [RcuSet.hook,RcuSet.set]
    rw [update_of_ne hne.symm]
    rfl
  refine ⟨rfl,rfl,rfl,fun a => ?_,?_,?_,fun a hac hat => ?_⟩
  · rw [hheap]
    by_cases hac : a = s.current
    · rw [hac,update_self]
      exact ⟨_,rfl⟩
    · rw [update_of_ne hac]
      by_cases hat : a = t
      · rw [hat,update_self]
        exact ⟨_,rfl⟩
      · rw [update_of_ne hat]
        exact ⟨_,rfl⟩
  · rw [RcuSet.next,hheap,update_self]
  · rw [RcuSet.next,hheap,update_of_ne hne,update_self]
  · rw [RcuSet.next,hheap,update_of_ne hac,update_of_ne hat]
    rfl

private theorem Shape.of_hooked {E b t r} (h : Shape s (some b) (some t) (E ++ [t]) L S)
    (hr : Hooked s r b t) : Shape r none none [] L (E ++ [t] ++ S) := by
  have hnodup := h.nodup
  have hcur := h.current_notMem
  have hperm : Perm ([] ++ L ++ s.current :: (E ++ [t] ++ S)) (E ++ [t] ++ L ++ s.current :: S) := by
    rw [nil_append,append_assoc _ L]
    exact (Perm.append_left L perm_middle.symm).trans (perm_append_comm_assoc L (E ++ [t]) (s.current :: S))
  obtain ⟨hDL,-,hDLS⟩ := nodup_append.mp hnodup
  obtain ⟨hD,-,hDisj⟩ := nodup_append.mp hDL
  have htD : t ∈ E ++ [t] := mem_append_right E mem_cons_self
  have htE : t ∉ E := fun hm => (nodup_append.mp hD).2.2 t hm t mem_cons_self rfl
  have hne (a : Nat) (ha : a ∈ E ++ [t] ++ L) : a ≠ s.current := fun heq => hcur.1 (heq ▸ ha)
  obtain ⟨hE,-⟩ := seg_concat.mp h.emptied
  refine ⟨rfl,rfl,?_,?_,rfl,?_,?_,?_⟩
  · rw [hr.first,hr.current]
    exact h.live.congr (fun a ha => hr.other a (hne a (mem_append_right _ ha)) (fun hat => hDisj t htD a ha hat.symm))
  · rw [hr.current,hr.ofCurrent,seg_append]
    refine ⟨s.next s.current,seg_concat.mpr ⟨hE.congr (fun a ha => ?_),hr.ofLast⟩,h.spare.congr (fun a ha => ?_)⟩
    · exact hr.other a (hne a (mem_append_left L (mem_append_left _ ha))) (fun hat => htE (hat ▸ ha))
    · exact hr.other a (fun hac => hcur.2 (hac ▸ ha)) (fun hat => hDLS t (mem_append_left L htD) a (mem_cons_of_mem _ ha) hat.symm)
  · rw [hr.current]
    exact hperm.nodup_iff.mpr hnodup
  · intro a ha
    rw [hr.current] at ha
    obtain ⟨n,hn⟩ := hr.data a
    rw [hr.ngroups,hn]
    exact h.alloc a (hperm.mem_iff.mp ha)
  · intro a ha
    obtain ⟨n,hn⟩ := hr.data a
    rw [hn]
    exact h.blank a ha

/-- The current group's link leads to the empties, and the last of these to where it led. -/
theorem Shape.hook (h : Shape s emptyHead emptyTail D L S) : ∃ S', Shape (s.hook emptyHead emptyTail) none none [] L S' ∧
    (s.hook emptyHead emptyTail).first = s.first ∧ (s.hook emptyHead emptyTail).current = s.current ∧
    ∀ a ∈ L ++ [s.current], ∃ n, (s.hook emptyHead emptyTail).heap a = { s.heap a with next := n } := by
  rcases eq_nil_or_concat' D with rfl | ⟨E,t,rfl⟩
  · have htail : emptyTail = none := h.last
    have hhook : s.hook emptyHead emptyTail = s := by
      rw [htail]
      cases emptyHead with
      | none | some => rfl
    rw [hhook]
    exact ⟨S,⟨rfl,rfl,h.live,h.spare,rfl,h.nodup,h.alloc,h.blank⟩,rfl,rfl,fun a _ => ⟨_,rfl⟩⟩
  · obtain rfl : emptyTail = some t := h.last.trans getLast?_concat
    obtain ⟨b,rfl⟩ : ∃ b, emptyHead = some b := by
      rw [h.head]
      cases E with
      | nil => exact ⟨t,rfl⟩
      | cons b E => exact ⟨b,rfl⟩
    have htcur : t ≠ s.current := by
      rintro rfl
      exact h.current_notMem.1 (mem_append_left L (mem_append_right E mem_cons_self))
    have hr := hooked (b := b) s htcur
    exact ⟨E ++ [t] ++ S,h.of_hooked hr,hr.first,hr.current,fun a _ => hr.data a⟩

theorem emptied_blank {a} (h : a = s.first ∨ ((s.heap a).head = 0 ∧ (s.heap a).tail = 0)) :
    (s.emptied.heap a).head = 0 ∧ (s.emptied.heap a).tail = 0 := by
  rw [emptied,RcuSet.set]
  dsimp only
  by_cases ha : a = s.first
  · rw [ha,update_self]
    exact ⟨rfl,rfl⟩
  · rw [update_of_ne ha]
    exact h.resolve_left ha

/-- The group that was emptied, with the first one moved on. -/
theorem Shape.emptied_next {n} (h : Shape s emptyHead emptyTail D (s.first :: L) S) (hn : s.next s.first = some n) :
    Shape { s.emptied with first := n } (some (emptyHead.getD s.first)) (some s.first) (D ++ [s.first]) L S := by
  have hnext : ({ s.emptied with first := n } : RcuSet C).next = s.next := funext (heap_set Group.next rfl)
  have hlist : D ++ [s.first] ++ L ++ s.current :: S = D ++ s.first :: L ++ s.current :: S := by
    rw [append_assoc D]
    rfl
  refine ⟨?_,?_,?_,?_,getLast?_concat.symm,?_,fun a ha => ?_,fun a ha => emptied_blank ?_⟩
  · rw [h.head]
    cases D with
    | nil | cons => rfl
  · rw [hnext]
    exact seg_concat.mpr ⟨h.emptied,hn⟩
  · rw [hnext]
    exact hn ▸ h.live.2
  · rw [hnext]
    exact h.spare
  · exact hlist ▸ h.nodup
  · refine ⟨(h.alloc a (hlist ▸ ha)).1,?_⟩
    rw [show (s.emptied.heap a).capacity = (s.heap a).capacity from heap_set Group.capacity (by rfl) a]
    exact (h.alloc a (hlist ▸ ha)).2
  · rcases mem_append.mp ha with ha | ha
    · rcases mem_append.mp ha with ha | ha
      · exact .inr (h.blank a (mem_append_left S ha))
      · exact .inl (mem_singleton.mp ha)
    · exact .inr (h.blank a (mem_append_right D ha))

/-- All groups are empty, and the first of them becomes the first and the current one. -/
theorem Shape.emptied_all (h : Shape s emptyHead emptyTail D [] S) :
    ∃ S', Shape { s.emptied with first := emptyHead.getD s.first, current := emptyHead.getD s.first } none none [] [] S' ∧
      (s.emptied.heap (emptyHead.getD s.first)).head = 0 ∧ (s.emptied.heap (emptyHead.getD s.first)).tail = 0 := by
  have hcur : s.first = s.current := some.inj h.live
  have hnext : ({ s.emptied with first := emptyHead.getD s.first, current := emptyHead.getD s.first } : RcuSet C).next = s.next :=
    funext (heap_set Group.next rfl)
  obtain ⟨S',hS'⟩ : ∃ S', D ++ s.current :: S = emptyHead.getD s.first :: S' := by
    rw [h.head]
    cases D with
    | nil => exact ⟨S,by rw [← hcur]; rfl⟩
    | cons a D => exact ⟨D ++ s.current :: S,rfl⟩
  have hblank (a : Nat) (ha : a ∈ D ++ s.current :: S) : (s.emptied.heap a).head = 0 ∧ (s.emptied.heap a).tail = 0 := by
    apply emptied_blank
    rcases mem_append.mp ha with ha | ha
    · exact .inr (h.blank a (mem_append_left S ha))
    · rcases mem_cons.mp ha with ha | ha
      · exact .inl (ha.trans hcur.symm)
      · exact .inr (h.blank a (mem_append_right D ha))
  have hlist : D ++ [] ++ s.current :: S = emptyHead.getD s.first :: S' := by
    rw [append_nil]
    exact hS'
  have hall : Seg s.next (some (emptyHead.getD s.first)) (emptyHead.getD s.first :: S') none := by
    rw [← hS',seg_append]
    exact ⟨some s.first,h.emptied,congrArg some hcur,h.spare⟩
  refine ⟨S',⟨rfl,rfl,rfl,?_,rfl,?_,fun a ha => ?_,fun a ha => ?_⟩,?_⟩
  · rw [hnext]
    exact hall.2
  · exact hlist ▸ h.nodup
  · have hmem : a ∈ D ++ [] ++ s.current :: S := hlist ▸ ha
    refine ⟨(h.alloc a hmem).1,?_⟩
    rw [show (s.emptied.heap a).capacity = (s.heap a).capacity from heap_set Group.capacity (by rfl) a]
    exact (h.alloc a hmem).2
  · exact hblank a (hS' ▸ mem_cons_of_mem _ ha)
  · exact hblank _ (hS' ▸ mem_cons_self)

section
variable (h : Shape s emptyHead emptyTail D L S)
include h

theorem Shape.first_notMem : s.first ∉ D ++ S ∧ s.first ∉ (L ++ [s.current]).tail := by
  have hnodup : (D ++ (L ++ [s.current]) ++ S).Nodup := by
    rw [← append_assoc,append_assoc _ [s.current]]
    exact h.nodup
  obtain ⟨l,hl⟩ := h.head_eq
  rw [hl] at hnodup ⊢
  obtain ⟨hDL,-,hS⟩ := nodup_append.mp hnodup
  obtain ⟨-,hL,hD⟩ := nodup_append.mp hDL
  refine ⟨fun hm => ?_,(nodup_cons.mp hL).1⟩
  rcases mem_append.mp hm with hm | hm
  · exact hD s.first hm s.first mem_cons_self rfl
  · exact hS s.first (mem_append_right D mem_cons_self) s.first hm rfl

theorem Shape.headUp : Shape s.headUp emptyHead emptyTail D L S := by
  refine h.of_next rfl rfl rfl (heap_set Group.next rfl) (heap_set Group.capacity rfl) (fun a ha => update_of_ne ?_ _ _)
  rintro rfl
  exact h.first_notMem.1 ha

/-- The head moves past an element: a marker sets the epoch, and a callback no longer waits. -/
theorem Live.headUp (hlive : Live s epoch L) (hne : (s.heap s.first).head ≠ (s.heap s.first).tail) {x}
    (hx : (s.heap s.first).e (s.heap s.first).head = x) : Live s.headUp (lastEpoch epoch [x]) L ∧
      waiting s.heap epoch (L ++ [s.current]) = decode epoch [x] ++ waiting s.headUp.heap (lastEpoch epoch [x]) (L ++ [s.current]) := by
  have hlt : (s.heap s.first).head < (s.heap s.first).tail := lt_of_le_of_ne hlive.first.le hne
  have hcons := Group.content_eq_cons hlt
  have hself : s.headUp.heap s.first = { s.heap s.first with head := (s.heap s.first).head+1 } := update_self s.first _ _
  have hother (a : Nat) (ha : a ∈ (L ++ [s.current]).tail) : s.headUp.heap a = s.heap a := by
    refine update_of_ne ?_ _ _
    rintro rfl
    exact h.first_notMem.2 ha
  have hlast := hlive.first.last hne
  obtain ⟨l,hl⟩ := h.head_eq
  have hflat : l.flatMap (fun b => decode 0 (s.headUp.heap b).content) = l.flatMap (fun b => decode 0 (s.heap b).content) := by
    rw [flatMap_def,flatMap_def]
    congr 1
    exact map_congr_left (fun b hb => by rw [hother b (by rw [hl]; exact hb)])
  rw [hcons,hx,← singleton_append,lastEpoch_append] at hlast
  refine ⟨⟨?_,fun a ha => ?_⟩,?_⟩
  · rw [show s.headUp.first = s.first from rfl,hself]
    exact ⟨hlt,hlive.first.fits,fun _ => hlast,(hcons ▸ hlive.first.paired).tail⟩
  · rw [hother a ha]
    exact hlive.rest a ha
  · rw [hl,waiting,waiting,hself,hflat,hcons,hx,← singleton_append,decode_append,append_assoc]

end

/-- The same callbacks wait when the groups hold the same elements. -/
theorem Live.of_data {s' : RcuSet C} (hlive : Live s epoch L) (hmem : s.first ∈ L ++ [s.current]) (hfirst : s'.first = s.first)
    (hcurrent : s'.current = s.current) (hdata : ∀ a ∈ L ++ [s.current], ∃ n, s'.heap a = { s.heap a with next := n }) :
    Live s' epoch L ∧ waiting s'.heap epoch (L ++ [s'.current]) = waiting s.heap epoch (L ++ [s.current]) := by
  refine ⟨⟨?_,fun a ha => ?_⟩,?_⟩
  · obtain ⟨n,hn⟩ := hdata s.first hmem
    rw [hfirst,hn]
    exact ⟨hlive.first.le,hlive.first.fits,hlive.first.last,hlive.first.paired⟩
  · rw [hcurrent] at ha
    obtain ⟨n,hn⟩ := hdata a (mem_of_mem_tail ha)
    rw [hn]
    exact (hlive.rest a ha).of_next n
  · rw [hcurrent]
    refine waiting_congr (fun a ha => ?_)
    obtain ⟨n,hn⟩ := hdata a ha
    rw [hn]
    rfl

/-- A first group that is at a marker, or empty, can be taken to follow no epoch. -/
theorem Live.of_starts (hlive : Live s epoch L) (h : Shape s emptyHead emptyTail D L S) (hstarts : (s.heap s.first).Starts) :
    Live s 0 L ∧ waiting s.heap 0 (L ++ [s.current]) = waiting s.heap epoch (L ++ [s.current]) := by
  obtain ⟨hdecode,hok⟩ := hstarts.decode_eq hlive.first.le epoch 0
  obtain ⟨l,hl⟩ := h.head_eq
  refine ⟨⟨hok hlive.first,hlive.rest⟩,?_⟩
  rw [hl,waiting,waiting,hdecode]

end Lists

section Invariant
variable {C : Type} {s s' : State C}

/-- The callbacks that were run are the first that were added, in this order and when their epoch
had passed; the others are those that wait. -/
def Logged (ran added waits : List (Epoch × C)) : Prop :=
  ∃ old, added = old ++ waits ∧ List.Forall₂ (fun r a => r.2 = a.2 ∧ Passed r.1 a.1) ran old

structure Rests (set : RcuSet C) (ran added : List (Epoch × C)) (L S : List Nat) : Prop where
  shape : Shape set none none [] L S
  live : Live set 0 L
  starts : (set.heap set.first).Starts
  zero : (set.heap set.first).head = (set.heap set.first).tail → (set.heap set.first).tail = 0
  nonempty : L ≠ [] → (set.heap set.first).head ≠ (set.heap set.first).tail
  logged : Logged ran added (waiting set.heap 0 (L ++ [set.current]))

structure Cleans (set : RcuSet C) (emptyHead emptyTail : Option Nat) (epoch : Epoch) (ran added : List (Epoch × C)) (D L S : List Nat) :
    Prop where
  shape : Shape set emptyHead emptyTail D L S
  live : Live set epoch L
  logged : Logged ran added (waiting set.heap epoch (L ++ [set.current]))

def Inv (s : State C) : Prop :=
  match s.pc with
  | .idle => ∃ L S, Rests s.set s.ran s.added L S
  | .cleaning _ emptyHead emptyTail => (s.set.heap s.set.first).Starts ∧ ∃ D L S, Cleans s.set emptyHead emptyTail 0 s.ran s.added D L S
  | .draining m emptyHead emptyTail => ∃ epoch D L S, Passed m epoch ∧ Cleans s.set emptyHead emptyTail epoch s.ran s.added D L S
  | .calling m emptyHead emptyTail c => ∃ epoch ran D L S, Passed m epoch ∧ s.ran = ran ++ [(m,c)] ∧
      (s.set.heap s.set.first).head ≠ (s.set.heap s.set.first).tail ∧
      (s.set.heap s.set.first).e (s.set.heap s.set.first).head = .callback c ∧
      Cleans s.set emptyHead emptyTail epoch ran s.added D L S

theorem Rests.finish {set} {L S} (h : Rests set s.ran s.added L S) (m : Epoch) : Inv (s.finish set m) :=
  have hshape := h.shape
  ⟨L,S,⟨hshape.head,hshape.emptied,hshape.live,hshape.spare,hshape.last,hshape.nodup,hshape.alloc,hshape.blank⟩,
    ⟨h.live.first,h.live.rest⟩,h.starts,h.zero,h.nonempty,h.logged⟩

variable {m : Epoch} {ran : List (Epoch × C)} {emptyHead : Option Nat} {added : List (Epoch × C)}
  {emptyTail : Option Nat} {waits : List (Epoch × C)}

theorem Logged.run {m epoch c} (h : Logged ran added ((epoch,c) :: waits))
    (hpassed : Passed m epoch) : Logged (ran ++ [(m,c)]) added waits := by
  obtain ⟨old,hadded,hran⟩ := h
  refine ⟨old ++ [(epoch,c)],by rw [hadded,append_assoc]; rfl,?_⟩
  exact rel_append hran (.cons ⟨rfl,hpassed⟩ .nil)

theorem Logged.add (h : Logged ran added waits) (x : Epoch × C) : Logged ran (added ++ [x]) (waits ++ [x]) := by
  obtain ⟨old,hadded,hran⟩ := h
  exact ⟨old,by rw [hadded,append_assoc],hran⟩

theorem Inv.add (h : Inv s) (hcan : s.canAdd = true) (epoch : Epoch) (c : C) : ∃ s', s.next (.add epoch c) = some s' ∧ Inv s' := by
  cases hpc : s.pc with
  | idle =>
    rw [Inv,hpc] at h
    obtain ⟨L,S,hrests⟩ := h
    obtain ⟨set,L',S',hadd,hshape,hlive,hfirst,hwait,hkept⟩ := add_spec hrests.shape hrests.live hrests.zero epoch c
    refine ⟨{ s with set := set, added := s.added ++ [(epoch,c)] },?_,?_⟩
    · rw [State.next,if_pos hcan,hadd]
      rfl
    · rw [Inv]
      dsimp only
      rw [hpc]
      have hok := hrests.live.first
      obtain ⟨hhead,-,-,hlt,-⟩ := (s.set.heap s.set.first).add_fields epoch c
      have hgroup : (set.heap set.first).Starts ∧ (set.heap set.first).head ≠ (set.heap set.first).tail := by
        rw [hfirst]
        rcases hkept with hkept | ⟨hor,n,hkept⟩
        · rw [hkept,hhead]
          exact ⟨hrests.starts.add hok.le,Nat.ne_of_lt (Nat.lt_of_le_of_lt hok.le hlt)⟩
        · rw [hkept]
          exact ⟨hrests.starts,hor.elim hrests.nonempty id⟩
      refine ⟨L',S',hshape,hlive,hgroup.1,fun heq => absurd heq hgroup.2,fun _ => hgroup.2,?_⟩
      rw [hwait]
      exact hrests.logged.add _
  | calling m emptyHead emptyTail c' =>
    rw [Inv,hpc] at h
    obtain ⟨marked,ran,D,L,S,hpassed,hran,hne,hcall,hcleans⟩ := h
    obtain ⟨set,L',S',hadd,hshape,hlive,hfirst,hwait,hkept⟩ :=
      add_spec hcleans.shape hcleans.live (fun heq => absurd heq hne) epoch c
    refine ⟨{ s with set := set, added := s.added ++ [(epoch,c)] },?_,?_⟩
    · rw [State.next,if_pos hcan,hadd]
      rfl
    · rw [Inv]
      dsimp only
      rw [hpc]
      have hok := hcleans.live.first
      obtain ⟨hhead,-,-,hlt,-⟩ := (s.set.heap s.set.first).add_fields epoch c
      have hgroup : (set.heap set.first).head ≠ (set.heap set.first).tail ∧
          (set.heap set.first).e (set.heap set.first).head = .callback c' := by
        rw [hfirst]
        rcases hkept with hkept | ⟨-,n,hkept⟩
        · rw [hkept,hhead,Group.add_head hok.le hne]
          exact ⟨Nat.ne_of_lt (Nat.lt_of_le_of_lt hok.le hlt),hcall⟩
        · rw [hkept]
          exact ⟨hne,hcall⟩
      refine ⟨marked,ran,D,L',S',hpassed,hran,hgroup.1,hgroup.2,hshape,hlive,?_⟩
      rw [hwait]
      exact hcleans.logged.add _
  | cleaning | draining =>
    rw [State.canAdd,hpc] at hcan
    exact Bool.noConfusion hcan

/-- The next callback is called, or the next marker or the end of the group is reached. -/
theorem Inv.go_draining (h : Inv s) (hpc : s.pc = .draining m emptyHead emptyTail) : ∃ s', s.go = some s' ∧ Inv s' ∧ s'.pc ≠ .idle := by
  rw [Inv,hpc] at h
  obtain ⟨epoch,D,L,S,hpassed,hcleans⟩ := h
  have hclean (hstarts : (s.set.heap s.set.first).Starts) : Inv { s with pc := .cleaning m emptyHead emptyTail } := by
    obtain ⟨hlive,hwait⟩ := hcleans.live.of_starts hcleans.shape hstarts
    refine ⟨hstarts,D,L,S,hcleans.shape,hlive,?_⟩
    rw [hwait]
    exact hcleans.logged
  rw [State.go,hpc]
  dsimp only
  by_cases hne : (s.set.heap s.set.first).head ≠ (s.set.heap s.set.first).tail
  · rw [if_pos hne]
    cases helem : (s.set.heap s.set.first).e (s.set.heap s.set.first).head with
    | callback c =>
      exact ⟨_,rfl,⟨epoch,s.ran,D,L,S,hpassed,rfl,hne,helem,hcleans⟩,nofun⟩
    | marker marked => exact ⟨_,rfl,hclean (fun _ => ⟨marked,helem⟩),nofun⟩
  · rw [if_neg hne]
    exact ⟨_,rfl,hclean (fun hne' => absurd hne' hne),nofun⟩

theorem Inv.go_calling {c} (h : Inv s) (hpc : s.pc = .calling m emptyHead emptyTail c) :
    ∃ s', s.go = some s' ∧ Inv s' ∧ s'.pc ≠ .idle := by
  rw [Inv,hpc] at h
  obtain ⟨epoch,ran,D,L,S,hpassed,hran,hne,hcall,hcleans⟩ := h
  obtain ⟨hlive,hwait⟩ := Live.headUp hcleans.shape hcleans.live hne hcall
  rw [State.go,hpc]
  refine ⟨_,rfl,⟨epoch,D,L,S,hpassed,hcleans.shape.headUp,hlive,?_⟩,nofun⟩
  have hlogged := hcleans.logged
  rw [hwait] at hlogged
  dsimp only
  rw [hran]
  exact hlogged.run hpassed

theorem waiting_zero (heap : Nat → Group C) (l : List Nat) : waiting heap 0 l = l.flatMap (fun a => decode 0 (heap a).content) := by
  cases l with
  | nil => rfl
  | cons a l => rfl

theorem Shape.walk_eq {set : RcuSet C} {L S : List Nat} (h : Shape set none none [] L S) {n : Nat} (hn : set.ngroups ≤ n) :
    walk set.next n (some set.first) = L ++ set.current :: S := by
  have hseg : Seg set.next (some set.first) (L ++ set.current :: S) none := seg_append.mpr ⟨some set.current,h.live,rfl,h.spare⟩
  exact hseg.walk_eq (h.length_le.trans hn)

theorem Rests.pending_eq {set : RcuSet C} {ran added : List (Epoch × C)} {L S : List Nat} (h : Rests set ran added L S) :
    set.pending = waiting set.heap 0 (L ++ [set.current]) := by
  have hspare : S.flatMap (fun a => decode 0 (set.heap a).content) = [] := by
    rw [flatMap_eq_nil_iff]
    intro a ha
    obtain ⟨hhead,htail⟩ := h.shape.blank a ha
    rw [Group.content_eq_nil (hhead.trans htail.symm)]
    rfl
  have hwalk : walk (fun a => (set.heap a).next) set.ngroups (some set.first) = L ++ [set.current] ++ S := by
    rw [append_assoc]
    exact h.shape.walk_eq le_rfl
  rw [pending,hwalk,flatMap_append,hspare,append_nil,waiting_zero]

/-- The first group is not empty: its epoch has passed, or cleaning ends. -/
theorem Inv.go_marker (h : Inv s) (hpc : s.pc = .cleaning m emptyHead emptyTail)
    (hne : (s.set.heap s.set.first).head ≠ (s.set.heap s.set.first).tail) :
    ∃ s', s.go = some s' ∧ Inv s' ∧ (s'.pc = .idle → ∀ x ∈ s'.set.pending.head?, ¬ Passed m x.1) := by
  rw [Inv,hpc] at h
  obtain ⟨hstarts,D,L,S,hcleans⟩ := h
  obtain ⟨epoch,hmark⟩ := hstarts hne
  rw [State.go,hpc]
  dsimp only
  rw [if_pos hne,hmark]
  dsimp only
  by_cases hpassed : Passed m epoch
  · rw [if_pos hpassed]
    obtain ⟨hlive,hwait⟩ := Live.headUp hcleans.shape hcleans.live hne hmark
    refine ⟨_,rfl,⟨epoch,D,L,S,hpassed,hcleans.shape.headUp,hlive,?_⟩,nofun⟩
    have hlogged := hcleans.logged
    rwa [hwait] at hlogged
  · rw [if_neg hpassed]
    obtain ⟨S',hshape,hfirst,hcurrent,hdata⟩ := hcleans.shape.hook
    obtain ⟨hlive,hwait⟩ := hcleans.live.of_data hcleans.shape.first_mem hfirst hcurrent hdata
    obtain ⟨n,hn⟩ := hdata s.set.first hcleans.shape.first_mem
    have hgroup : ((s.set.hook emptyHead emptyTail).heap (s.set.hook emptyHead emptyTail).first) =
        { s.set.heap s.set.first with next := n } := by
      rw [hfirst,hn]
    have hrests : Rests (s.set.hook emptyHead emptyTail) s.ran s.added L S' :=
      ⟨hshape,hlive,hgroup ▸ hstarts,hgroup ▸ fun heq => absurd heq hne,hgroup ▸ fun _ => hne,hwait ▸ hcleans.logged⟩
    refine ⟨_,rfl,hrests.finish m,fun _ x hx => ?_⟩
    obtain ⟨l,hl⟩ := hcleans.shape.head_eq
    have hcons := Group.content_eq_cons (lt_of_le_of_ne hcleans.live.first.le hne)
    rw [hmark] at hcons
    obtain ⟨c,l',-,hdecode⟩ := (hcons ▸ hcleans.live.first.paired).decode_head? 0
    have hpending : (s.finish (s.set.hook emptyHead emptyTail) m).set.pending = waiting s.set.heap 0 (L ++ [s.set.current]) :=
      hrests.pending_eq.trans hwait
    rw [hpending,hl,waiting,hcons,hdecode] at hx
    obtain rfl : (epoch,c) = x := some.inj hx
    exact hpassed

/-- The first group is empty: the next one follows, or all are empty and cleaning ends. -/
theorem Inv.go_empty (h : Inv s) (hpc : s.pc = .cleaning m emptyHead emptyTail)
    (heq : (s.set.heap s.set.first).head = (s.set.heap s.set.first).tail) :
    ∃ s', s.go = some s' ∧ Inv s' ∧ (s'.pc = .idle → ∀ x ∈ s'.set.pending.head?, ¬ Passed m x.1) := by
  rw [Inv,hpc] at h
  obtain ⟨hstarts,D,L,S,hcleans⟩ := h
  have hempty : (s.set.heap s.set.first).content = [] := Group.content_eq_nil heq
  rw [State.go,hpc]
  dsimp only
  rw [if_neg (not_not.mpr heq)]
  by_cases hcur : s.set.first = s.set.current
  · rw [if_pos hcur]
    have hL := hcleans.shape.eq_nil hcur
    subst hL
    obtain ⟨S',hshape,hhead,htail⟩ := hcleans.shape.emptied_all
    obtain ⟨hok,hstarts'⟩ := Group.ok_of_blank hhead htail
    have hnone : decode 0 (s.set.emptied.heap (emptyHead.getD s.set.first)).content = [] := by
      rw [Group.content_eq_nil (hhead.trans htail.symm)]
      rfl
    have hrests : Rests { s.set.emptied with first := emptyHead.getD s.set.first, current := emptyHead.getD s.set.first }
        s.ran s.added [] S' := by
      refine ⟨hshape,⟨hok,fun a ha => absurd ha not_mem_nil⟩,hstarts',fun _ => htail,fun hne => absurd rfl hne,?_⟩
      have hlogged := hcleans.logged
      rw [nil_append,waiting,← hcur,hempty] at hlogged
      rw [nil_append,waiting]
      exact hnone ▸ hlogged
    refine ⟨_,rfl,hrests.finish m,fun _ x hx => ?_⟩
    have hpending := hrests.pending_eq.trans (append_eq_nil_iff.mpr ⟨hnone,rfl⟩)
    exact absurd ((Eq.symm hx).trans (congrArg List.head? hpending)) (some_ne_none x)
  · rw [if_neg hcur]
    obtain ⟨l,rfl⟩ : ∃ l, L = s.set.first :: l := by
      have hseg := hcleans.shape.live
      cases L with
      | nil => exact absurd (some.inj hseg) hcur
      | cons a l => exact ⟨l,by rw [some.inj hseg.1]⟩
    obtain ⟨n,l',hn,hl⟩ : ∃ n l', s.set.next s.set.first = some n ∧ l ++ [s.set.current] = n :: l' := by
      have hseg := hcleans.shape.live.2
      cases l with
      | nil => exact ⟨s.set.current,[],hseg,rfl⟩
      | cons b l => exact ⟨b,l ++ [s.set.current],hseg.1,rfl⟩
    have hrest := hcleans.live.rest
    have hfirst := hcleans.shape.first_notMem.2
    rw [cons_append,tail_cons] at hrest hfirst
    have hsame (a : Nat) (ha : a ∈ l ++ [s.set.current]) : s.set.emptied.heap a = s.set.heap a := by
      refine update_of_ne ?_ _ _
      rintro rfl
      exact hfirst ha
    have hmem : n ∈ l ++ [s.set.current] := by
      rw [hl]
      exact mem_cons_self
    have hwaits : (s.set.emptied.heap n).Waits := by
      rw [hsame n hmem]
      exact hrest n hmem
    rw [show (s.set.heap s.set.first).next = some n from hn]
    refine ⟨_,rfl,⟨hwaits.starts,D ++ [s.set.first],l,S,hcleans.shape.emptied_next hn,⟨hwaits.ok,fun a ha => ?_⟩,?_⟩,nofun⟩
    · have ha' : a ∈ l ++ [s.set.current] := mem_of_mem_tail ha
      exact hsame a ha' ▸ hrest a ha'
    · have hlogged := hcleans.logged
      rw [cons_append,waiting,hempty,decode,nil_append,← waiting_zero] at hlogged
      have hwait : waiting s.set.emptied.heap 0 (l ++ [s.set.current]) = waiting s.set.heap 0 (l ++ [s.set.current]) :=
        waiting_congr (fun a ha => congrArg Group.content (hsame a ha))
      exact hwait ▸ hlogged

theorem Inv.go (h : Inv s) (hpc : s.pc ≠ .idle) : ∃ s', s.go = some s' ∧ Inv s' := by
  cases hpc' : s.pc with
  | idle => exact absurd hpc' hpc
  | cleaning m emptyHead emptyTail =>
    by_cases hne : (s.set.heap s.set.first).head = (s.set.heap s.set.first).tail
    · obtain ⟨s',hgo,hinv,-⟩ := h.go_empty hpc' hne
      exact ⟨s',hgo,hinv⟩
    · obtain ⟨s',hgo,hinv,-⟩ := h.go_marker hpc' hne
      exact ⟨s',hgo,hinv⟩
  | draining m emptyHead emptyTail =>
    obtain ⟨s',hgo,hinv,-⟩ := h.go_draining hpc'
    exact ⟨s',hgo,hinv⟩
  | calling m emptyHead emptyTail c =>
    obtain ⟨s',hgo,hinv,-⟩ := h.go_calling hpc'
    exact ⟨s',hgo,hinv⟩

theorem Inv.next {a : Act C} (h : Inv s) (hnext : s.next a = some s') : Inv s' := by
  cases a with
  | add epoch c =>
    have hcan : s.canAdd = true := (ite_none_right_eq_some.mp hnext).1
    obtain ⟨s'',hadd,hinv⟩ := h.add hcan epoch c
    exact some.inj (hadd.symm.trans hnext) ▸ hinv
  | cleanUntil m =>
    rw [State.next] at hnext
    cases hpc : s.pc with
    | idle =>
      rw [hpc] at hnext
      rw [Inv,hpc] at h
      obtain ⟨L,S,hrests⟩ := h
      dsimp only at hnext
      split at hnext
      · exact some.inj hnext ▸ ⟨hrests.starts,[],L,S,hrests.shape,hrests.live,hrests.logged⟩
      · exact some.inj hnext ▸ hrests.finish m
    | cleaning m' emptyHead emptyTail | draining m' emptyHead emptyTail | calling m' emptyHead emptyTail c =>
      rw [hpc] at hnext
      exact absurd hnext.symm (some_ne_none s')
  | go =>
    have hpc : s.pc ≠ .idle := by
      intro hpc
      rw [State.next,State.go,hpc] at hnext
      exact absurd hnext.symm (some_ne_none s')
    obtain ⟨s'',hgo,hinv⟩ := h.go hpc
    exact some.inj (hgo.symm.trans hnext) ▸ hinv

theorem inv_start : Inv (machine C).start := by
  have hblank := Group.ok_of_blank (g := (Group.make firstCapacity : Group C)) rfl rfl
  refine ⟨[],[],⟨rfl,rfl,rfl,rfl,rfl,nodup_singleton _,fun a ha => ?_,fun a ha => absurd ha not_mem_nil⟩,
    ⟨hblank.1,fun a ha => absurd ha not_mem_nil⟩,hblank.2,fun _ => rfl,fun hne => absurd rfl hne,[],rfl,.nil⟩
  rw [mem_singleton.mp ha]
  exact ⟨Nat.zero_lt_one,(by decide : 2 ≤ firstCapacity)⟩

end Invariant

section
variable {C : Type} {set : RcuSet C} {S : List Nat} {p : Option Nat} {n : Nat}

theorem checkFrom_spare (hseg : Seg set.next p S none) (hblank : ∀ a ∈ S, (set.heap a).head = 0 ∧ (set.heap a).tail = 0)
    (hn : S.length ≤ n) : set.checkFrom n p true = true := by
  induction S generalizing p n with
  | nil =>
    obtain rfl : p = none := hseg
    rw [checkFrom]
  | cons a S ih =>
    obtain ⟨rfl,hseg⟩ := hseg
    cases n with
    | zero => exact absurd hn (Nat.not_succ_le_zero _)
    | succ n =>
      obtain ⟨hhead,htail⟩ := hblank a mem_cons_self
      have hrest := ih hseg (fun b hb => hblank b (mem_cons_of_mem a hb)) (Nat.le_of_succ_le_succ hn)
      rw [checkFrom]
      rw [Bool.true_or,hhead,htail,show (set.heap a).next = set.next a from rfl,hrest]
      simp

theorem checkFrom_live {L} (hseg : Seg set.next p L (some set.current)) (hspare : Seg set.next (set.next set.current) S none)
    (hblank : ∀ a ∈ S, (set.heap a).head = 0 ∧ (set.heap a).tail = 0) (hcur : set.current ∉ L)
    (hle : ∀ a ∈ L ++ [set.current], (set.heap a).head ≤ (set.heap a).tail ∧ (set.heap a).tail ≤ (set.heap a).capacity)
    (hne : ∀ a ∈ L, (set.heap a).head ≠ (set.heap a).tail) (hn : (L ++ set.current :: S).length ≤ n) :
    set.checkFrom n p false = true := by
  induction L generalizing p n with
  | nil =>
    obtain rfl : p = some set.current := hseg
    cases n with
    | zero => exact absurd hn (Nat.not_succ_le_zero _)
    | succ n =>
      obtain ⟨hht,hcap⟩ := hle set.current mem_cons_self
      have hrest := checkFrom_spare hspare hblank (Nat.le_of_succ_le_succ hn)
      rw [checkFrom]
      rw [Bool.false_or,decide_eq_true rfl,show (set.heap set.current).next = set.next set.current from rfl,hrest]
      simp [hht,hcap]
  | cons a L ih =>
    obtain ⟨rfl,hseg⟩ := hseg
    cases n with
    | zero => exact absurd hn (Nat.not_succ_le_zero _)
    | succ n =>
      obtain ⟨hht,hcap⟩ := hle a mem_cons_self
      have hac : a ≠ set.current := fun heq => hcur (heq ▸ mem_cons_self)
      have hrest := ih hseg (fun hm => hcur (mem_cons_of_mem a hm)) (fun b hb => hle b (mem_cons_of_mem a hb))
        (fun b hb => hne b (mem_cons_of_mem a hb)) (Nat.le_of_succ_le_succ hn)
      rw [checkFrom]
      rw [Bool.false_or,decide_eq_false hac,show (set.heap a).next = set.next a from rfl,hrest]
      simp [hht,hcap,hne a mem_cons_self]

/-- The assertions of `check` hold between two calls. -/
theorem Rests.check {ran added L} (h : Rests set ran added L S) (hn : set.ngroups ≤ n) : set.check n = true := by
  have hgroup (a : Nat) (ha : a ∈ L ++ [set.current]) :
      (∃ epoch, (set.heap a).Ok epoch) ∧ (L ≠ [] → (set.heap a).head ≠ (set.heap a).tail) := by
    obtain ⟨l,hl⟩ := h.shape.head_eq
    rcases mem_cons.mp (hl ▸ ha) with rfl | hal
    · exact ⟨⟨0,h.live.first⟩,h.nonempty⟩
    · have hwaits := h.live.rest a (by rw [hl]; exact hal)
      exact ⟨⟨0,hwaits.ok⟩,fun _ => hwaits.nonempty⟩
  refine checkFrom_live h.shape.live h.shape.spare h.shape.blank h.shape.current_notMem.1 (fun a ha => ?_) (fun a ha => ?_)
    (h.shape.length_le.trans hn)
  · obtain ⟨epoch,hok⟩ := (hgroup a ha).1
    exact ⟨hok.le,hok.fits⟩
  · exact (hgroup a (mem_append_left _ ha)).2 (ne_nil_of_mem ha)

end

section
variable {C : Type} {s : State C}

theorem Inv.logged (h : Inv s) : ∃ waits, Logged s.ran s.added waits ∧ (s.pc = .idle → s.set.pending = waits) := by
  cases hpc : s.pc with
  | idle =>
    rw [Inv,hpc] at h
    obtain ⟨L,S,hrests⟩ := h
    exact ⟨_,hrests.logged,fun _ => hrests.pending_eq⟩
  | cleaning m emptyHead emptyTail =>
    rw [Inv,hpc] at h
    obtain ⟨-,D,L,S,hcleans⟩ := h
    exact ⟨_,hcleans.logged,nofun⟩
  | draining m emptyHead emptyTail =>
    rw [Inv,hpc] at h
    obtain ⟨epoch,D,L,S,-,hcleans⟩ := h
    exact ⟨_,hcleans.logged,nofun⟩
  | calling m emptyHead emptyTail c =>
    rw [Inv,hpc] at h
    obtain ⟨epoch,ran,D,L,S,hpassed,hran,hne,hcall,hcleans⟩ := h
    have hlogged := hcleans.logged
    rw [(Live.headUp hcleans.shape hcleans.live hne hcall).2] at hlogged
    exact ⟨_,hran ▸ hlogged.run hpassed,nofun⟩

/-- The callbacks that have run are the first ones that were added, each once and in their order, and
each in a cleaning that its epoch is before; between two calls the others wait in the groups, in their
order, and the assertions of `check` hold. No assertion fails in between and no step is undefined; a
cleaning ends only when nothing waits, or when the epoch of the first one that waits has not passed. -/
theorem callbacks_run_in_order (h : (machine C).Reachable s) :
    List.Forall₂ (fun r a => r.2 = a.2 ∧ Passed r.1 a.1) s.ran (s.added.take s.ran.length) ∧
    (s.pc = .idle → s.set.pending = s.added.drop s.ran.length ∧ ∀ n, s.set.ngroups ≤ n → s.set.check n = true) ∧
    (s.canAdd = true → ∀ epoch c, (s.next (.add epoch c)).isSome) ∧
    (s.pc ≠ .idle → (s.next .go).isSome) ∧
    (∀ m emptyHead emptyTail s', s.pc = .cleaning m emptyHead emptyTail → s.next .go = some s' → s'.pc = .idle →
      ∀ x ∈ s'.set.pending.head?, ¬ Passed m x.1) := by
  have hI : Inv s := h.ofNext_invariant inv_start (fun _ _ _ hI hnext => hI.next hnext)
  obtain ⟨waits,⟨old,hadded,hran⟩,hpending⟩ := hI.logged
  have hlen : s.ran.length = old.length := hran.length_eq
  refine ⟨?_,fun hidle => ⟨?_,fun n hn => ?_⟩,fun hcan epoch c => ?_,fun hpc => ?_,fun m emptyHead emptyTail s' hpc hgo hidle => ?_⟩
  · rw [hadded,hlen,List.take_left]
    exact hran
  · rw [hpending hidle,hadded,hlen,List.drop_left]
  · rw [Inv,hidle] at hI
    obtain ⟨L,S,hrests⟩ := hI
    exact hrests.check hn
  · obtain ⟨s',hadd,-⟩ := hI.add hcan epoch c
    rw [hadd]
    rfl
  · obtain ⟨s',hgo,-⟩ := hI.go hpc
    rw [State.next,hgo]
    rfl
  · by_cases hne : (s.set.heap s.set.first).head = (s.set.heap s.set.first).tail
    · obtain ⟨s'',hgo',-,hend⟩ := hI.go_empty hpc hne
      exact Option.some.inj (hgo'.symm.trans hgo) ▸ hend (Option.some.inj (hgo'.symm.trans hgo) ▸ hidle)
    · obtain ⟨s'',hgo',-,hend⟩ := hI.go_marker hpc hne
      exact Option.some.inj (hgo'.symm.trans hgo) ▸ hend (Option.some.inj (hgo'.symm.trans hgo) ▸ hidle)

/-- A callback adds another one while it runs, and the cleaning runs this one as well. -/
def nestedRun (first second : Nat) : List (Act Nat) :=
  [.add 1 first,.cleanUntil 3,.go,.go,.add 2 second,.go,.go,.go,.go,.go,.go,.go]

theorem callbacks_run_in_order_nested :
    let s := (machine Nat).play (machine Nat).start (nestedRun 10 20)
    s.added = [(1,10),(2,20)] ∧ s.ran = [(3,10),(3,20)] ∧
      List.Forall₂ (fun r a => r.2 = a.2 ∧ Passed r.1 a.1) s.ran (s.added.take s.ran.length) ∧ s.set.check s.set.ngroups = true := by
  have hreach := Machine.Reachable.play .start (nestedRun 10 20)
    (show (machine Nat).playable (machine Nat).start (nestedRun 10 20) = true by decide +kernel)
  obtain ⟨hran,hrest,-⟩ := callbacks_run_in_order hreach
  exact ⟨by decide +kernel,by decide +kernel,hran,(hrest rfl).2 _ le_rfl⟩

end

end AlNiCo.Sto.Rcu
