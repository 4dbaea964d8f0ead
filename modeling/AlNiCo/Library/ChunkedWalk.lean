import Mathlib

/-! An array kept in chunks of one size, walked by a pointer that is moved inside a chunk and
set anew where a chunk begins. -/
namespace AlNiCo.Library.ChunkedWalk

structure Place where
  chunk : Nat
  offset : Nat
deriving DecidableEq

def place (size i : Nat) : Place := ⟨i / size,i % size⟩

def Place.index (size : Nat) (p : Place) : Nat := p.chunk*size+p.offset

theorem index_place (size i : Nat) : (place size i).index size = i := by
  rw [Place.index,place,Nat.mul_comm]
  exact Nat.div_add_mod i size

theorem place_injective (size : Nat) : Function.Injective (place size) := by
  intro i j h
  rw [← index_place size i,← index_place size j,h]

/-- The pointer of the forward walk, before slot `i` is visited. -/
def next (size i : Nat) (it : Place) : Place :=
  if i % size = 0 then ⟨i / size,0⟩ else ⟨it.chunk,it.offset+1⟩

/-- The pointer of the backward walk, before slot `i-1` is visited. -/
def prev (size i : Nat) (it : Place) : Place :=
  if i % size = 0 then ⟨(i-1) / size,size-1⟩ else ⟨it.chunk,it.offset-1⟩

private theorem place_succ {size i} (h : (i+1) % size ≠ 0) : place size (i+1) = ⟨(place size i).chunk,(place size i).offset+1⟩ := by
  have hdvd : ¬ size ∣ i+1 := fun hd => h (Nat.mod_eq_zero_of_dvd hd)
  have hdiv : (i+1) / size = i / size := Nat.succ_div_of_not_dvd hdvd
  have hmod : (i+1) % size = i % size+1 := by
    have h1 := Nat.div_add_mod (i+1) size
    have h2 := Nat.div_add_mod i size
    rw [hdiv] at h1
    omega
  rw [place,hdiv,hmod]
  rfl

theorem next_place {size} (i : Nat) (it : Place) (h : i % size = 0 ∨ it = place size (i-1)) : next size i it = place size i := by
  by_cases h0 : i % size = 0
  · rw [next,if_pos h0,place,h0]
  · cases i with
    | zero => exact absurd (Nat.zero_mod size) h0
    | succ i =>
      rw [next,if_neg h0,place_succ h0,h.resolve_left h0]
      rfl

theorem prev_place {size} (i : Nat) : prev size (i+1) (place size (i+1)) = place size i := by
  by_cases h0 : (i+1) % size = 0
  · have hmod : i % size = size-1 := by
      obtain ⟨k,hk⟩ := Nat.dvd_of_mod_eq_zero h0
      obtain ⟨k,rfl⟩ : ∃ j, k = j+1 := Nat.exists_eq_succ_of_ne_zero (by rintro rfl; omega)
      have hpos : 0 < size := Nat.pos_of_ne_zero (by rintro rfl; omega)
      have hi : i = size-1+size*k := by
        rw [Nat.mul_add_one] at hk
        omega
      rw [hi,Nat.add_mul_mod_self_left,Nat.mod_eq_of_lt (by omega)]
    rw [prev,if_pos h0,Nat.add_sub_cancel,place,hmod]
  · rw [prev,if_neg h0,place_succ h0,Nat.add_sub_cancel]

section
variable {σ ε : Type*}

/-- Visits `n` slots from slot `i` on, until a visit fails. -/
def forward (size : Nat) (f : Nat → Place → σ → Except ε σ) : Nat → Nat → Place → σ → Except ε σ
  | 0, _, _, s => .ok s
  | n+1, i, it, s =>
    let it := next size i it
    match f i it s with
    | .ok s => forward size f n (i+1) it s
    | .error e => .error e

def backward (size : Nat) (f : Place → σ → σ) : Nat → Nat → Place → σ → σ
  | 0, _, _, s => s
  | n+1, i, it, s =>
    let it := prev size i it
    backward size f n (i-1) it (f it s)

/-- What holds of the end of a walk, and of the state it failed in. -/
def Ends (P : σ → Prop) (Q : ε → Prop) : Except ε σ → Prop
  | .ok s => P s
  | .error e => Q e

/-- The rule of the forward walk: an invariant that is indexed by the slots visited. -/
theorem forward_ends (size : Nat) {f : Nat → Place → σ → Except ε σ} {P : Nat → σ → Prop} {Q : ε → Prop} {n i : Nat}
    (hstep : ∀ j < i+n, ∀ s, P j s → Ends (P (j+1)) Q (f j (place size j) s)) (it : Place) {s : σ}
    (hit : i % size = 0 ∨ it = place size (i-1)) (hs : P i s) : Ends (P (i+n)) Q (forward size f n i it s) := by
  induction n generalizing i it s with
  | zero => exact hs
  | succ n ih =>
    rw [forward,next_place i it hit]
    have h := hstep i (by omega) s hs
    cases hf : f i (place size i) s with
    | error e => simpa only [hf,Ends] using h
    | ok s' =>
      rw [hf] at h
      have hn : i+1+n = i+(n+1) := by omega
      rw [← hn] at hstep ⊢
      exact ih hstep _ (.inr rfl) h

/-- The backward walk visits every slot of its range once, the last one first. -/
theorem backward_eq (size : Nat) (f : Place → σ → σ) (n i : Nat) (s : σ) :
    backward size f n (i+n) (place size (i+n)) s = ((List.range' i n).reverse.map (place size)).foldl (fun s p => f p s) s := by
  induction n generalizing s with
  | zero => rfl
  | succ n ih =>
    rw [← Nat.add_assoc,backward,prev_place,Nat.add_sub_cancel,ih,List.range'_1_concat,List.reverse_append]
    rfl

end

end AlNiCo.Library.ChunkedWalk
