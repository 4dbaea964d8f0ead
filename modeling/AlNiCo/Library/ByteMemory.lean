import Mathlib

/-! Memory addressed by bytes, with little-endian values of any width. -/
namespace AlNiCo.Library.ByteMemory
open List BitVec

abbrev Memory := Nat → BitVec 8

def copy (m : Memory) (a : Nat) (src : List (BitVec 8)) : Memory :=
  fun i => if a ≤ i then (src[i-a]?).getD (m i) else m i

def load (w : Nat) (m : Memory) (a : Nat) : BitVec (8*w) :=
  BitVec.ofFnLE (fun i : Fin (8*w) => (m (a+i.val/8)).getLsbD (i.val % 8))

def bytes (w : Nat) (v : BitVec (8*w)) : List (BitVec 8) :=
  (List.range w).map (fun k => v.extractLsb' (8*k) 8)

def store (w : Nat) (m : Memory) (a : Nat) (v : BitVec (8*w)) : Memory := copy m a (bytes w v)

def word (m : Memory) (a : Nat) : BitVec 32 := load 4 m a

def storeWord (m : Memory) (a : Nat) (v : BitVec 32) : Memory := store 4 m a v

def slice (m : Memory) (a n : Nat) : List (BitVec 8) := (List.range n).map (fun i => m (a+i))

variable (m : Memory) {w a i : Nat}

@[simp] theorem length_slice (a n : Nat) : (slice m a n).length = n := by
  simp [slice]

theorem getElem?_slice (a : Nat) {n i} (h : i < n) : (slice m a n)[i]? = some (m (a+i)) := by
  rw [slice,getElem?_map,getElem?_range h,Option.map_some]

theorem slice_congr {m m' a b n} (h : ∀ i < n, m (a+i) = m' (b+i)) : slice m a n = slice m' b n := by
  rw [slice,slice]
  exact map_congr_left (fun i hi => h i (mem_range.mp hi))

theorem slice_append (a n k : Nat) : slice m a (n+k) = slice m a n ++ slice m (a+n) k := by
  simp only [slice,range_add,map_append,map_map,Function.comp_def,Nat.add_assoc]

@[simp] theorem length_bytes (w : Nat) (v : BitVec (8*w)) : (bytes w v).length = w := by
  simp [bytes]

theorem copy_of_lt (src : List (BitVec 8)) (h : i < a) : copy m a src i = m i := by
  rw [copy,if_neg (by omega)]

theorem copy_of_ge (src : List (BitVec 8)) (h : a+src.length ≤ i) : copy m a src i = m i := by
  rw [copy,if_pos (by omega),List.getElem?_eq_none (by omega),Option.getD_none]

theorem copy_append_of_lt (src src' : List (BitVec 8)) (h : i < a+src.length) : copy m a (src ++ src') i = copy m a src i := by
  rw [copy,copy]
  split
  · rw [getElem?_append_left (by omega)]
  · rfl

theorem copy_add (a : Nat) {k src b} (h : src[k]? = some b) : copy m a src (a+k) = b := by
  rw [copy,if_pos (Nat.le_add_right _ _),Nat.add_sub_cancel_left,h,Option.getD_some]

/-- The same bytes at two places are the same value. -/
theorem load_move {m m' a b} (h : ∀ i < w, m (a+i) = m' (b+i)) : load w m a = load w m' b := by
  apply eq_of_getLsbD_eq
  intro i hi
  simp only [load,getLsbD_ofFnLE,dif_pos hi]
  rw [h _ (by omega)]

theorem load_congr {m m' a} (h : ∀ i, a ≤ i → i < a+w → m i = m' i) : load w m a = load w m' a := by
  apply eq_of_getLsbD_eq
  intro i hi
  simp only [load,getLsbD_ofFnLE,dif_pos hi]
  rw [h _ (by omega) (by omega)]

theorem load_zero (w a : Nat) : load w (fun _ => 0) a = 0 := by
  apply eq_of_getLsbD_eq
  intro i hi
  simp only [load,getLsbD_ofFnLE,dif_pos hi]
  simp

/-- A copy elsewhere leaves a value as it is. -/
theorem load_copy (m : Memory) {a b src} (h : a+w ≤ b ∨ b+src.length ≤ a) : load w (copy m b src) a = load w m a := by
  apply load_congr
  intro i hlo hhi
  rcases h with h | h
  · exact copy_of_lt m src (by omega)
  · exact copy_of_ge m src (by omega)

theorem load_store {w u} (m : Memory) {a b v} (h : a+u ≤ b ∨ b+w ≤ a) : load u (store w m b v) a = load u m a :=
  load_copy m (by rwa [length_bytes])

theorem load_store_self (m : Memory) (a : Nat) (v : BitVec (8*w)) : load w (store w m a v) a = v := by
  apply eq_of_getLsbD_eq
  intro i hi
  have hbyte : (bytes w v)[i/8]? = some (v.extractLsb' (8*(i/8)) 8) := by
    simp only [bytes,getElem?_map,getElem?_range (show i/8 < w by omega),Option.map_some]
  simp only [load,getLsbD_ofFnLE,dif_pos hi,store,copy_add m a hbyte,getLsbD_extractLsb']
  rw [show 8*(i/8)+i % 8 = i by omega]
  simp [Nat.mod_lt]

theorem bytes_load (w : Nat) (m : Memory) (a : Nat) : bytes w (load w m a) = slice m a w := by
  rw [bytes,slice]
  refine map_congr_left (fun k hk => ?_)
  have hlt := mem_range.mp hk
  apply eq_of_getLsbD_eq
  intro i hi
  simp only [getLsbD_extractLsb',load,getLsbD_ofFnLE,dif_pos (show 8*k+i < 8*w by omega)]
  rw [show (8*k+i)/8 = k by omega,show (8*k+i) % 8 = i by omega,decide_eq_true hi,Bool.true_and]

theorem load_of_bytes {m a v} (h : ∀ i b, (bytes w v)[i]? = some b → m (a+i) = b) : load w m a = v := by
  rw [← load_store_self m a v]
  refine load_move (fun i hi => ?_)
  obtain ⟨b,hb⟩ : ∃ b, (bytes w v)[i]? = some b := ⟨_,getElem?_eq_getElem (by rwa [length_bytes])⟩
  rw [h i b hb,store,copy_add m a hb]

theorem slice_copy (a : Nat) (src : List (BitVec 8)) : slice (copy m a src) a src.length = src := by
  refine List.ext_getElem? (fun i => ?_)
  by_cases hi : i < src.length
  · rw [getElem?_slice _ _ hi,copy_add m a (List.getElem?_eq_getElem hi),List.getElem?_eq_getElem hi]
  · rw [List.getElem?_eq_none (by rw [length_slice]; omega),List.getElem?_eq_none (by omega)]

section

theorem word_congr {m m' a} (h : ∀ i, a ≤ i → i < a+4 → m i = m' i) : word m a = word m' a :=
  load_congr (w := 4) h

theorem word_storeWord {a b v} (h : a+4 ≤ b ∨ b+4 ≤ a) : word (storeWord m b v) a = word m a := load_store (w := 4) (u := 4) m h

theorem word_storeWord_self (a : Nat) (v : BitVec 32) : word (storeWord m a v) a = v :=
  load_store_self (w := 4) m a v

end

theorem store_of_lt (m : Memory) {a i} (v : BitVec (8*w)) (h : i < a) : store w m a v i = m i :=
  copy_of_lt m _ h

theorem store_of_ge (m : Memory) {a i} (v : BitVec (8*w)) (h : a+w ≤ i) : store w m a v i = m i :=
  copy_of_ge m _ (by rwa [length_bytes])

theorem storeWord_of_lt (v : BitVec 32) (h : i < a) : storeWord m a v i = m i :=
  store_of_lt (w := 4) m v h

theorem storeWord_of_ge (v : BitVec 32) (h : a+4 ≤ i) : storeWord m a v i = m i :=
  store_of_ge (w := 4) m v h

end AlNiCo.Library.ByteMemory
