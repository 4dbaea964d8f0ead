import Mathlib.Data.List.Pairwise
import Mathlib.Data.List.Sort
import Mathlib.Order.Basic

/-! Singly linked chains with descending keys. A place is the head of the chain or the link
of one of its members; new members are linked in at a place, none is ever removed. Readers
walk along the links while the chain grows, and the members that count are replayed from
the lowest key up. -/
namespace AlNiCo.Library.DescendingChain
open List

section
variable {V : Type*} [DecidableEq V]

def next : List V → V → Option V
  | [],_ => none
  | x :: l,p => if x = p then l.head? else next l p

/-- The member at a place; no place is the head. -/
def after (l : List V) : Option V → Option V
  | none => l.head?
  | some p => next l p

def insertAfter : List V → V → V → List V
  | [],_,_ => []
  | x :: l,p,v => if x = p then x :: v :: l else x :: insertAfter l p v

def linkAfter (l : List V) (v : V) : Option V → List V
  | none => v :: l
  | some p => insertAfter l p v

end

section
variable {V K : Type*} [LinearOrder K] (key : V → K)

def Descending (l : List V) : Prop := l.Pairwise (fun a b => key b < key a)

def Below : Option V → V → Prop
  | none,_ => True
  | some p,x => key x < key p

/-- Where a reader is: about to follow the link at a place, or at a member. -/
inductive Walk (V : Type*)
  | load (place : Option V)
  | at (v : V)
  deriving DecidableEq

def Ahead : Walk V → V → Prop
  | .load place,x => Below key place x
  | .at v,x => key x ≤ key v

def Walk.On (l : List V) : Walk V → Prop
  | .load place => ∀ p ∈ place, p ∈ l
  | .at v => v ∈ l

end

section Lemmas
variable {V K : Type*} [DecidableEq V] [LinearOrder K] {key : V → K} {l : List V} {p q v x : V} {place : Option V}

theorem next_mem (h : next l p = some q) : q ∈ l := by
  induction l with
  | nil => cases h
  | cons y l ih =>
    rw [next] at h
    split at h
    · exact mem_cons_of_mem _ (mem_of_mem_head? h)
    · exact mem_cons_of_mem _ (ih h)

theorem after_mem (h : after l place = some q) : q ∈ l := by
  cases place with
  | none => exact mem_of_mem_head? h
  | some p => exact next_mem h

theorem mem_of_next (h : next l p = some q) : p ∈ l := by
  induction l with
  | nil => cases h
  | cons y l ih =>
    rw [next] at h
    split at h
    · next heq => exact heq ▸ mem_cons_self
    · exact mem_cons_of_mem _ (ih h)

section
variable (hl : Descending key l)
include hl

/-- The member behind `p` has the largest key below that of `p`. -/
theorem next_spec (h : next l p = some q) : key q < key p ∧ ∀ x ∈ l, key x < key p → key x ≤ key q := by
  induction l with
  | nil => cases h
  | cons y l ih =>
    obtain ⟨hy,hrest⟩ := pairwise_cons.mp hl
    rw [next] at h
    split at h
    · next heq =>
      subst heq
      obtain ⟨l',rfl⟩ := head?_eq_some_iff.mp h
      refine ⟨hy q mem_cons_self,fun x hx hlt => ?_⟩
      rcases mem_cons.mp hx with rfl | hx
      · exact absurd hlt (lt_irrefl _)
      rcases mem_cons.mp hx with rfl | hx
      · exact le_rfl
      · exact ((pairwise_cons.mp hrest).1 x hx).le
    · obtain ⟨hlt,hle⟩ := ih hrest h
      refine ⟨hlt,fun x hx hxp => ?_⟩
      rcases mem_cons.mp hx with rfl | hx
      · exact absurd (hxp.trans_le' (hy p (mem_of_next h)).le) (lt_irrefl _)
      · exact hle x hx hxp

theorem after_below (h : after l place = some q) : Below key place q := by
  cases place with
  | none => trivial
  | some p => exact (next_spec hl h).1

theorem after_le (h : after l place = some q) (hx : x ∈ l) (hbelow : Below key place x) : key x ≤ key q := by
  cases place with
  | none =>
    obtain ⟨l',rfl⟩ := head?_eq_some_iff.mp h
    rcases mem_cons.mp hx with rfl | hx
    · exact le_rfl
    · exact ((pairwise_cons.mp hl).1 x hx).le
  | some p => exact (next_spec hl h).2 x hx hbelow

theorem after_eq_none (hplace : ∀ p ∈ place, p ∈ l) (h : after l place = none) (hx : x ∈ l) : ¬Below key place x := by
  cases place with
  | none => rw [after,head?_eq_none_iff] at h; exact absurd (h ▸ hx) not_mem_nil
  | some p =>
    rw [after] at h
    have hp := hplace p rfl
    clear hplace
    induction l with
    | nil => cases hx
    | cons y l ih =>
      obtain ⟨hy,hrest⟩ := pairwise_cons.mp hl
      rw [next] at h
      split at h
      · next heq =>
        rw [head?_eq_none_iff] at h
        rw [h,mem_singleton] at hx
        rw [hx,heq]
        exact lt_irrefl _
      · next hne =>
        have hp' := (mem_cons.mp hp).resolve_left (Ne.symm hne)
        rcases mem_cons.mp hx with heq | hx
        · rw [heq]
          exact not_lt.mpr (hy p hp').le
        · exact ih hrest hx h hp'

end

theorem mem_insertAfter (hp : p ∈ l) : x ∈ insertAfter l p v ↔ x = v ∨ x ∈ l := by
  induction l with
  | nil => cases hp
  | cons y l ih =>
    rw [insertAfter]
    split
    · simp only [mem_cons]
      exact or_left_comm
    · next hne =>
      have hmem := ih ((mem_cons.mp hp).resolve_left (Ne.symm hne))
      rw [mem_cons,mem_cons,hmem]
      exact or_left_comm

theorem mem_linkAfter (hplace : ∀ p ∈ place, p ∈ l) : x ∈ linkAfter l v place ↔ x = v ∨ x ∈ l := by
  cases place with
  | none => exact mem_cons
  | some p => exact mem_insertAfter (hplace p rfl)

section
variable (hl : Descending key l)
include hl

/-- A member that fits between its neighbours keeps the order. -/
theorem descending_linkAfter (hplace : ∀ p ∈ place, p ∈ l) (hv : Below key place v)
    (hafter : ∀ x ∈ l, Below key place x → key x < key v) : Descending key (linkAfter l v place) := by
  cases place with
  | none => exact pairwise_cons.mpr ⟨fun x hx => hafter x hx trivial,hl⟩
  | some p =>
    have hp := hplace p rfl
    clear hplace
    rw [linkAfter]
    induction l with
    | nil => cases hp
    | cons y l ih =>
      obtain ⟨hy,hrest⟩ := pairwise_cons.mp hl
      rw [insertAfter]
      split
      · next heq =>
        subst heq
        refine pairwise_cons.mpr ⟨fun x hx => ?_,pairwise_cons.mpr ⟨fun x hx => ?_,hrest⟩⟩
        · rcases mem_cons.mp hx with rfl | hx
          · exact hv
          · exact hy x hx
        · exact hafter x (mem_cons_of_mem _ hx) (hy x hx)
      · next hne =>
        have hp' := (mem_cons.mp hp).resolve_left (Ne.symm hne)
        refine pairwise_cons.mpr ⟨fun x hx => ?_,ih hrest (fun x hx => hafter x (mem_cons_of_mem _ hx)) hp'⟩
        rcases (mem_insertAfter hp').mp hx with rfl | hx
        · exact hv.trans (hy p hp')
        · exact hy x hx

omit [DecidableEq V] in
theorem Descending.eq_of_key_eq (hx : x ∈ l) (hv : v ∈ l) (h : key x = key v) : x = v := by
  induction l with
  | nil => cases hx
  | cons y l ih =>
    obtain ⟨hy,hrest⟩ := pairwise_cons.mp hl
    rcases mem_cons.mp hx with rfl | hx' <;> rcases mem_cons.mp hv with rfl | hv'
    · rfl
    · exact absurd h (hy v hv').ne'
    · exact absurd h (hy x hx').ne
    · exact ih hrest hx' hv'

/-- Following a link leaves nothing out. -/
theorem Ahead.load (h : after l place = some q) (hx : x ∈ l) (hahead : Ahead key (.load place) x) :
    Ahead key (.at q) x := after_le hl h hx hahead

omit [DecidableEq V] in
theorem Ahead.pass (hx : x ∈ l) (hq : q ∈ l) (hne : x ≠ q) (hahead : Ahead key (.at q) x) : Ahead key (.load (some q)) x :=
  lt_of_le_of_ne hahead (fun heq => hne (hl.eq_of_key_eq hx hq heq))

end

end Lemmas

section
variable {V K α : Type*} [LinearOrder K] (key : V → K) (keep : V → Bool) (act : V → α → α)

/-- The members that count, with their keys strictly between the bounds. -/
def window (l : List V) (lo hi : K) : List V := l.filter (fun v => keep v && (decide (lo < key v) && decide (key v < hi)))

def replay (l : List V) (lo hi : K) (x : α) : α := (window key keep l lo hi).foldr act x

variable {key keep act} {keep' : V → Bool} {l l' : List V} {lo hi lo' hi' mid top : K} {v : V} {x : α}

theorem mem_window : v ∈ window key keep l lo hi ↔ v ∈ l ∧ keep v = true ∧ lo < key v ∧ key v < hi := by
  rw [window,mem_filter,Bool.and_eq_true,Bool.and_eq_true,decide_eq_true_eq,decide_eq_true_eq]

theorem Descending.window (hl : Descending key l) : Descending key (window key keep l lo hi) := List.Pairwise.filter _ hl

theorem Descending.eq_of_mem_iff (hl : Descending key l) (hl' : Descending key l') (h : ∀ v, v ∈ l ↔ v ∈ l') : l = l' := by
  have : Std.Irrefl (fun a b : V => key b < key a) := ⟨fun _ => lt_irrefl _⟩
  have : Std.Antisymm (fun a b : V => key b < key a) := ⟨fun _ _ h h' => absurd h h'.not_gt⟩
  exact List.Pairwise.eq_of_mem_iff hl hl' h

theorem replay_congr (hl : Descending key l) (hl' : Descending key l')
    (h : ∀ v, v ∈ window key keep l lo hi ↔ v ∈ window key keep' l' lo' hi') :
    replay key keep act l lo hi x = replay key keep' act l' lo' hi' x := by
  rw [replay,replay,hl.window.eq_of_mem_iff hl'.window h]

theorem replay_eq_self (h : ∀ v ∈ l, keep v = true → lo < key v → ¬key v < hi) : replay key keep act l lo hi x = x := by
  have hnil : window key keep l lo hi = [] := by
    refine eq_nil_iff_forall_not_mem.mpr (fun v hv => ?_)
    obtain ⟨hv,hkeep,hlo,hhi⟩ := mem_window.mp hv
    exact h v hv hkeep hlo hhi
  rw [replay,hnil]
  rfl

/-- The highest member acts last. -/
theorem replay_cons (hl : Descending key l) (hv : v ∈ l) (hkeep : keep v = true) (hlo : lo < key v) (hhi : key v < hi)
    (htop : ∀ u ∈ l, keep u = true → key u < hi → key u ≤ key v) :
    replay key keep act l lo hi x = act v (replay key keep act l lo (key v) x) := by
  have hcons : window key keep l lo hi = v :: window key keep l lo (key v) := by
    refine hl.window.eq_of_mem_iff (pairwise_cons.mpr ⟨fun u hu => (mem_window.mp hu).2.2.2,hl.window⟩) (fun u => ?_)
    rw [mem_cons,mem_window,mem_window]
    constructor
    · rintro ⟨hu,hk,hl',hh⟩
      rcases (htop u hu hk hh).eq_or_lt with heq | hlt
      · exact .inl (hl.eq_of_key_eq hu hv heq)
      · exact .inr ⟨hu,hk,hl',hlt⟩
    · rintro (rfl | ⟨hu,hk,hl',hh⟩)
      · exact ⟨hv,hkeep,hlo,hhi⟩
      · exact ⟨hu,hk,hl',hh.trans hhi⟩
  rw [replay,hcons]
  rfl

/-- A replay can be taken up where another one ended. -/
theorem replay_split (hl : Descending key l) (hlo : lo ≤ mid) (hmid : mid < hi) (htop : ∀ v ∈ l, key v < top ↔ key v ≤ mid) :
    replay key keep act l lo hi x = replay key keep act l mid hi (replay key keep act l lo top x) := by
  have happ : window key keep l lo hi = window key keep l mid hi ++ window key keep l lo top := by
    refine hl.window.eq_of_mem_iff (pairwise_append.mpr ⟨hl.window,hl.window,fun u hu w hw => ?_⟩) (fun u => ?_)
    · obtain ⟨hw,-,-,htop'⟩ := mem_window.mp hw
      exact ((htop w hw).mp htop').trans_lt (mem_window.mp hu).2.2.1
    · rw [mem_append,mem_window,mem_window,mem_window]
      constructor
      · rintro ⟨hu,hk,hl',hh⟩
        rcases lt_or_ge mid (key u) with hlt | hge
        · exact .inl ⟨hu,hk,hlt,hh⟩
        · exact .inr ⟨hu,hk,hl',(htop u hu).mpr hge⟩
      · rintro (⟨hu,hk,hl',hh⟩ | ⟨hu,hk,hl',hh⟩)
        · exact ⟨hu,hk,hlo.trans_lt hl',hh⟩
        · exact ⟨hu,hk,hl',((htop u hu).mp hh).trans_lt hmid⟩
  rw [replay,happ,foldr_append]
  rfl

end

end AlNiCo.Library.DescendingChain
