import Mathlib

/-! Tables with finitely many rows, and scans that visit their keys in ascending
order. -/
namespace AlNiCo.Library
open Function List

section
variable {K : Type} [LinearOrder K]

def insertKey (key : K) : List K → List K
  | [] => [key]
  | a :: l => if key < a then key :: a :: l else if key = a then a :: l else a :: insertKey key l

theorem mem_insertKey {key k : K} {l : List K} : k ∈ insertKey key l ↔ k = key ∨ k ∈ l := by
  induction l with
  | nil => simp [insertKey]
  | cons a l ih =>
    rw [insertKey]
    split
    · exact mem_cons
    · split
      · rename_i heq
        subst heq
        simp
      · rw [mem_cons,ih,mem_cons]
        tauto

theorem pairwise_insertKey {key : K} {l : List K} (h : l.Pairwise (· < ·)) : (insertKey key l).Pairwise (· < ·) := by
  induction l with
  | nil => exact pairwise_singleton _ _
  | cons a l ih =>
    obtain ⟨ha,hl⟩ := pairwise_cons.mp h
    rw [insertKey]
    split
    · rename_i hlt
      refine pairwise_cons.mpr ⟨fun k hk => ?_,h⟩
      rcases mem_cons.mp hk with rfl | hk
      · exact hlt
      · exact hlt.trans (ha k hk)
    · rename_i hge
      split
      · exact h
      · rename_i hne
        refine pairwise_cons.mpr ⟨fun k hk => ?_,ih hl⟩
        rcases mem_insertKey.mp hk with rfl | hk
        · exact lt_of_le_of_ne (not_lt.mp hge) (fun heq => hne heq.symm)
        · exact ha k hk

end

/-- The keys are the domain of the rows, in ascending order. -/
structure OrderedIndex (K V : Type) [LinearOrder K] where
  keys : List K
  get : K → Option V
  sorted : keys.Pairwise (· < ·)
  mem_keys : ∀ k, k ∈ keys ↔ (get k).isSome

namespace OrderedIndex
variable {K V : Type} [LinearOrder K]

theorem ext_get {t t' : OrderedIndex K V} (h : t.get = t'.get) : t = t' := by
  obtain ⟨keys,get,hsorted,hmem⟩ := t
  obtain ⟨keys',get',hsorted',hmem'⟩ := t'
  obtain rfl : get = get' := h
  obtain rfl : keys = keys' := hsorted.eq_of_mem_iff hsorted' (fun k => (hmem k).trans (hmem' k).symm)
  rfl

def empty : OrderedIndex K V := ⟨[],fun _ => none,List.Pairwise.nil,by simp⟩

@[simp] theorem get_empty (k : K) : (empty : OrderedIndex K V).get k = none := rfl

variable (t : OrderedIndex K V)

/-- Every row is changed where it is; one without a result goes. -/
def mapRows (f : K → V → Option V) : OrderedIndex K V where
  keys := t.keys.filter (fun k => ((t.get k).bind (f k)).isSome)
  get k := (t.get k).bind (f k)
  sorted := t.sorted.filter _
  mem_keys k := by
    rw [List.mem_filter,t.mem_keys]
    cases t.get k <;> simp

@[simp] theorem get_mapRows (f : K → V → Option V) (k : K) : (t.mapRows f).get k = (t.get k).bind (f k) := rfl

def insert (key : K) (v : V) : OrderedIndex K V where
  keys := insertKey key t.keys
  get := update t.get key (some v)
  sorted := pairwise_insertKey t.sorted
  mem_keys k := by
    rw [mem_insertKey,t.mem_keys]
    by_cases hk : k = key
    · subst hk
      simp
    · rw [update_of_ne hk]
      simp [hk]

def erase (key : K) : OrderedIndex K V where
  keys := t.keys.filter (fun k => decide (k ≠ key))
  get := update t.get key none
  sorted := t.sorted.filter _
  mem_keys k := by
    rw [List.mem_filter,t.mem_keys]
    by_cases hk : k = key
    · subst hk
      simp
    · rw [update_of_ne hk]
      simp [hk]

@[simp] theorem get_insert (key : K) (v : V) : (t.insert key v).get = update t.get key (some v) := rfl

@[simp] theorem get_erase (key : K) : (t.erase key).get = update t.get key none := rfl

def insertAll (rows : List (K × V)) : OrderedIndex K V := rows.foldl (fun t r => t.insert r.1 r.2) t

@[simp] theorem insertAll_nil : t.insertAll [] = t := rfl

theorem isSome_insertAll (rows : List (K × V)) (k : K) : ((t.insertAll rows).get k).isSome ↔ k ∈ rows.map Prod.fst ∨ (t.get k).isSome := by
  induction rows generalizing t with
  | nil => simp
  | cons r rows ih =>
    rw [insertAll,foldl_cons]
    refine (ih (t.insert r.1 r.2)).trans ?_
    rw [get_insert,map_cons,mem_cons]
    by_cases hk : k = r.1
    · subst hk
      simp
    · rw [update_of_ne hk]
      simp [hk]

def eraseAll (keys : List K) : OrderedIndex K V := keys.foldl (fun t k => t.erase k) t

theorem get_eraseAll (keys : List K) (k : K) : (t.eraseAll keys).get k = if k ∈ keys then none else t.get k := by
  induction keys generalizing t with
  | nil => rfl
  | cons key keys ih =>
    rw [eraseAll,foldl_cons]
    refine (ih (t.erase key)).trans ?_
    by_cases hmem : k ∈ keys
    · rw [if_pos hmem,if_pos (mem_cons_of_mem _ hmem)]
    · rw [if_neg hmem,get_erase]
      by_cases hk : k = key
      · subst hk
        rw [update_self,if_pos mem_cons_self]
      · rw [update_of_ne hk,if_neg (fun h => (mem_cons.mp h).elim hk hmem)]

end OrderedIndex

section
variable {K : Type} [LinearOrder K]

/-- An ascending walk from `first` that stops at the boundary. -/
def walk (first boundary : K) (keys : List K) : List K :=
  (keys.dropWhile (fun k => decide (k < first))).takeWhile (fun k => decide (k < boundary))

private theorem dropWhile_eq_filter {l : List K} (hl : l.Pairwise (· ≤ ·)) (first : K) :
    l.dropWhile (fun k => decide (k < first)) = l.filter (fun k => decide (first ≤ k)) := by
  induction l with
  | nil => rfl
  | cons a l ih =>
    obtain ⟨ha,hl⟩ := pairwise_cons.mp hl
    by_cases h : a < first
    · rw [dropWhile_cons_of_pos (by simpa using h),filter_cons_of_neg (by simpa using h),ih hl]
    · have hle : first ≤ a := not_lt.mp h
      rw [dropWhile_cons_of_neg (by simpa using hle),filter_eq_self.mpr]
      intro k hk
      rcases mem_cons.mp hk with rfl | hk
      · exact decide_eq_true hle
      · exact decide_eq_true (hle.trans (ha k hk))

private theorem takeWhile_eq_filter {l : List K} (hl : l.Pairwise (· ≤ ·)) (boundary : K) :
    l.takeWhile (fun k => decide (k < boundary)) = l.filter (fun k => decide (k < boundary)) := by
  induction l with
  | nil => rfl
  | cons a l ih =>
    obtain ⟨ha,hl⟩ := pairwise_cons.mp hl
    by_cases h : a < boundary
    · rw [takeWhile_cons_of_pos (by simpa using h),filter_cons_of_pos (by simpa using h),ih hl]
    · have hle : boundary ≤ a := not_lt.mp h
      rw [takeWhile_cons_of_neg (by simpa using hle),eq_comm,filter_eq_nil_iff]
      intro k hk
      rcases mem_cons.mp hk with rfl | hk
      · simpa using hle
      · simpa using hle.trans (ha k hk)

theorem walk_eq_filter {l : List K} (hl : l.Pairwise (· ≤ ·)) (first boundary : K) :
    walk first boundary l = l.filter (fun k => decide (first ≤ k) && decide (k < boundary)) := by
  rw [walk,dropWhile_eq_filter hl,takeWhile_eq_filter (hl.filter _),filter_filter]
  exact filter_congr (fun k _ => Bool.and_comm _ _)

variable {V : Type} (t : OrderedIndex K V) {first boundary k : K}

def OrderedIndex.scan (first boundary : K) : List K := walk first boundary t.keys

theorem OrderedIndex.mem_scan : k ∈ t.scan first boundary ↔ (t.get k).isSome ∧ first ≤ k ∧ k < boundary := by
  rw [scan,walk_eq_filter (t.sorted.imp le_of_lt),mem_filter,t.mem_keys]
  simp

theorem OrderedIndex.pairwise_scan (first boundary : K) : (t.scan first boundary).Pairwise (· ≤ ·) := by
  rw [scan,walk_eq_filter (t.sorted.imp le_of_lt)]
  exact (t.sorted.imp le_of_lt).filter _

/-- A scan with limit 1 stops at the smallest key of its range. -/
theorem OrderedIndex.head?_scan_eq_some (h : (t.scan first boundary).head? = some k) :
    ((t.get k).isSome ∧ first ≤ k ∧ k < boundary) ∧ ∀ k', (t.get k').isSome → first ≤ k' → k' < boundary → k ≤ k' := by
  have hsorted := t.pairwise_scan first boundary
  obtain ⟨rest,hrest⟩ := head?_eq_some_iff.mp h
  refine ⟨t.mem_scan.mp (hrest ▸ mem_cons_self),fun k' hget hfirst hbound => ?_⟩
  have hmem := t.mem_scan.mpr ⟨hget,hfirst,hbound⟩
  rw [hrest] at hsorted hmem
  rcases mem_cons.mp hmem with rfl | hmem
  · exact le_rfl
  · exact (pairwise_cons.mp hsorted).1 k' hmem

theorem OrderedIndex.head?_scan_eq_none : (t.scan first boundary).head? = none ↔ ∀ k, (t.get k).isSome → first ≤ k → ¬k < boundary := by
  rw [head?_eq_none_iff,eq_nil_iff_forall_not_mem]
  refine forall_congr' (fun k => ?_)
  rw [t.mem_scan]
  tauto

/-- A boundary at or below the first key leaves nothing to visit. -/
theorem OrderedIndex.scan_eq_nil (h : boundary ≤ first) : t.scan first boundary = [] := by
  rw [eq_nil_iff_forall_not_mem]
  intro k hk
  obtain ⟨-,hfirst,hbound⟩ := t.mem_scan.mp hk
  exact absurd (hbound.trans_le h) hfirst.not_gt

end

end AlNiCo.Library
