import AlNiCo.Library.ByteOrder

/-! `range_scanner`: a scan that compares a key with its boundary only in the leaves where the
boundary can lie. -/
namespace AlNiCo.Sto.RangeScanner
open Library.ByteOrder List

/-- A leaf of a trie layer: the bytes that lead to the layer, and the slices of the leaf's keys
in the order of its permutation. -/
structure Leaf where
  path : List (BitVec 8)
  ikeys : List Nat
  sorted : ikeys.Pairwise (· ≤ ·)

/-- The slice at the end of the permutation; an empty leaf has none, and no key to compare. -/
def Leaf.lastIkey (l : Leaf) : Nat := l.ikeys.getLastD 0

/-- The keys of the leaf, those of the layers under it included. -/
def Leaf.Holds (l : Leaf) (key : List (BitVec 8)) : Prop := ∃ rest,key = l.path ++ rest ∧ front 8 rest ∈ l.ikeys

structure Answer where
  ok : Bool
  visited : Bool
  count : Bool

/-- The parameters of a scanner; the callbacks keep a state of their own. -/
structure Config (σ : Type) where
  boundary : List (BitVec 8)
  reverse : Bool
  limit : Int
  nodeCallback : Leaf → σ → Bool × σ
  valueCallback : List (BitVec 8) → σ → Answer × σ

/-- The scanner, with the keys that `value_callback_` was called for, the last one first. -/
structure Scanner (σ : Type) where
  boundaryCompar : Bool
  scanSucceeded : Bool
  scancount : Nat
  called : List (List (BitVec 8))
  callbacks : σ

def Scanner.init {σ : Type} (callbacks : σ) : Scanner σ := ⟨false,true,0,[],callbacks⟩

namespace Config

variable {σ : Type} (c : Config σ)

def check (l : Leaf) (boundaryCompar : Bool) : Bool :=
  let cmp := memcmp c.boundary l.path
  if c.reverse then cmp ≠ .lt || boundaryCompar
  else if cmp = .lt ∨ cmp = .eq ∧ c.boundary.length ≤ l.path.length then true
  else if cmp = .eq then front 8 (c.boundary.drop l.path.length) ≤ l.lastIkey
  else boundaryCompar

def visitLeaf (l : Leaf) (s : Scanner σ) : Scanner σ :=
  let (ok,callbacks) := c.nodeCallback l s.callbacks
  { s with
    scanSucceeded := s.scanSucceeded && ok
    callbacks := callbacks
    boundaryCompar := if c.boundary ≠ [] then c.check l s.boundaryCompar else s.boundaryCompar }

/-- The comparison of `visit_value`: the scan is past its end. -/
def reached (key : List (BitVec 8)) : Bool :=
  if c.reverse then strcmp c.boundary key ≠ .lt else strcmp c.boundary key ≠ .gt

/-- Also whether the scan goes on. With `always` every key is compared. -/
def visitValue (always : Bool) (key : List (BitVec 8)) (s : Scanner σ) : Bool × Scanner σ :=
  if (always || s.boundaryCompar) && c.reached key then (false,s)
  else
    let (answer,callbacks) := c.valueCallback key s.callbacks
    let scancount := if answer.count then s.scancount+1 else s.scancount
    let after : Scanner σ := { s with
      called := key :: s.called
      callbacks := callbacks
      scancount := scancount
      scanSucceeded := s.scanSucceeded && answer.ok && answer.visited }
    (answer.ok && answer.visited && !(0 < c.limit && c.limit ≤ scancount),after)

end Config

/-- What the tree shows the scanner. -/
inductive Visit
  | leaf (l : Leaf)
  | value (key : List (BitVec 8))

/-- A walk through the layers shows a leaf before the keys it holds, and again when it comes
back to it from a layer below. -/
def Walk : Option Leaf → List Visit → Prop
  | _,[] => True
  | _,.leaf l :: visits => Walk (some l) visits
  | none,.value _ :: _ => False
  | some l,.value key :: visits => l.Holds key ∧ Walk (some l) visits

variable {σ : Type}

def Config.scan (c : Config σ) (always : Bool) : List Visit → Scanner σ → Scanner σ
  | [],s => s
  | .leaf l :: visits,s => c.scan always visits (c.visitLeaf l s)
  | .value key :: visits,s =>
    match c.visitValue always key s with
    | (true,after) => c.scan always visits after
    | (false,after) => after

section

theorem le_getLastD {ks : List Nat} (h : ks.Pairwise (· ≤ ·)) {k : Nat} (hk : k ∈ ks) : k ≤ ks.getLastD 0 := by
  rcases eq_nil_or_concat ks with rfl | ⟨init,last,rfl⟩
  · cases hk
  · rw [concat_eq_append] at h hk ⊢
    rw [getLastD_concat]
    rcases mem_append.mp hk with hinit | hlast
    · exact (pairwise_append.mp h).2.2 k hinit last mem_cons_self
    · exact Nat.le_of_eq (mem_singleton.mp hlast)

variable {b p : List (BitVec 8)}

/-- Where the common bytes differ they decide, whatever follows. -/
theorem strcmp_of_memcmp_ne (h : memcmp b p ≠ .eq) (rest : List (BitVec 8)) : strcmp b (p ++ rest) = memcmp b p := by
  have happend : memcmp b (p ++ rest) = memcmp b p := by
    induction p generalizing b with
    | nil => cases b <;> exact absurd rfl h
    | cons y p ih =>
      cases b with
      | nil => exact absurd rfl h
      | cons x b =>
        rw [cons_append,memcmp,memcmp]
        rw [memcmp] at h
        cases hcmp : compare x.toNat y.toNat with
        | lt | gt => rfl
        | eq =>
          rw [hcmp] at h
          exact ih h
  rw [strcmp,happend]
  cases hcmp : memcmp b p with
  | eq => exact absurd hcmp h
  | lt => rfl
  | gt => rfl

theorem eq_append_drop (h : memcmp b p = .eq) (hlength : p.length ≤ b.length) : b = p ++ b.drop p.length := by
  induction p generalizing b with
  | nil => rfl
  | cons y p ih =>
    cases b with
    | nil => exact absurd hlength (Nat.not_succ_le_zero _)
    | cons x b =>
      rw [memcmp,Ordering.then_eq_eq,Nat.compare_eq_eq] at h
      rw [BitVec.eq_of_toNat_eq h.1,cons_append,length_cons,drop_succ_cons,← ih h.2 (Nat.le_of_succ_le_succ hlength)]

/-- A leaf that leaves the flag down holds no key at the boundary or past it. -/
theorem Config.reached_of_check (c : Config σ) {l : Leaf} {flag : Bool} (h : c.check l flag = false)
    {key : List (BitVec 8)} (hkey : l.Holds key) : c.reached key = false := by
  obtain ⟨rest,rfl,hrest⟩ := hkey
  rw [check] at h
  rw [reached]
  cases hreverse : c.reverse with
  | true =>
    simp only [hreverse,if_true,Bool.or_eq_false_iff,decide_eq_false_iff_not,ne_eq,Decidable.not_not] at h ⊢
    rw [strcmp_of_memcmp_ne (by rw [h.1]; decide),h.1]
  | false =>
    simp only [hreverse,Bool.false_eq_true,if_false,decide_eq_false_iff_not,ne_eq,Decidable.not_not] at h ⊢
    split at h
    · cases h
    case isFalse hends =>
      rw [not_or,not_and,Nat.not_le] at hends
      split at h
      case isTrue heq =>
        -- the boundary goes through this layer: the slices decide
        have hlast := Nat.not_le.mp (of_decide_eq_false h)
        rw [eq_append_drop heq (Nat.le_of_lt (hends.2 heq)),strcmp_append_left]
        exact strcmp_of_front_lt (Nat.lt_of_le_of_lt (le_getLastD l.sorted hrest) hlast)
      case isFalse hne =>
        rw [strcmp_of_memcmp_ne hne]
        cases hcmp : memcmp c.boundary l.path with
        | lt => exact absurd hcmp hends.1
        | eq => exact absurd hcmp hne
        | gt => rfl

end

namespace Config

variable {c : Config σ}

/-- A flag that is down says that the current leaf ends before the boundary. -/
def Sound (c : Config σ) (current : Option Leaf) (s : Scanner σ) : Prop :=
  s.boundaryCompar = false → ∀ l ∈ current,∀ key,l.Holds key → c.reached key = false

theorem sound_visitLeaf (hb : c.boundary ≠ []) (l : Leaf) (s : Scanner σ) : c.Sound (some l) (c.visitLeaf l s) := by
  intro hflag l' hl' key hkey
  obtain rfl := Option.some.inj hl'
  rw [visitLeaf] at hflag
  dsimp only at hflag
  rw [if_pos hb] at hflag
  exact c.reached_of_check hflag hkey

theorem visitValue_flag (always : Bool) (key : List (BitVec 8)) (s : Scanner σ) :
    (c.visitValue always key s).2.boundaryCompar = s.boundaryCompar := by
  rw [visitValue]
  split <;> rfl

theorem visitValue_eq {l s} (h : c.Sound (some l) s) {key} (hkey : l.Holds key) : c.visitValue false key s = c.visitValue true key s := by
  rw [visitValue,visitValue]
  cases hflag : s.boundaryCompar with
  | true => rfl
  | false => rw [h hflag l rfl key hkey]; rfl

/-- Along a walk, from any sound state. -/
theorem scan_eq (hb : c.boundary ≠ []) {visits current} (hwalk : Walk current visits)
    {s} (h : c.Sound current s) : c.scan false visits s = c.scan true visits s := by
  induction visits generalizing current s with
  | nil => rfl
  | cons visit visits ih =>
    cases visit with
    | leaf l =>
      exact ih hwalk (sound_visitLeaf hb l s)
    | value key =>
      cases current with
      | none => exact hwalk.elim
      | some l =>
        have hafter : c.Sound (some l) (c.visitValue true key s).2 := by
          rw [Sound,visitValue_flag]
          exact h
        rw [scan,scan,visitValue_eq h hwalk.1]
        cases hvisit : c.visitValue true key s with
        | mk continues after =>
          rw [hvisit] at hafter
          cases continues with
          | true => exact ih hwalk.2 hafter
          | false => rfl

/-- With an end key, a scan that waits for `boundary_compar_` calls its callback for the keys that
one which compares every key calls it for, and ends in the same state. -/
theorem boundary_shortcut (c : Config σ) (hb : c.boundary ≠ []) (visits : List Visit) (hwalk : Walk none visits)
    (callbacks : σ) : c.scan false visits (Scanner.init callbacks) = c.scan true visits (Scanner.init callbacks) :=
  scan_eq hb hwalk (fun _ _ hl => by cases hl)

def accepting (boundary : List (BitVec 8)) : Config Unit := ⟨boundary,false,-1,fun _ _ => (true,()),fun _ _ => (⟨true,true,true⟩,())⟩

/-- The slice that leads to the lower layer. -/
def path : List (BitVec 8) := [1,2,3,4,5,6,7,8]

/-- A leaf before the boundary, the leaf from which the walk goes into a layer, and two leaves of
that layer, the boundary lying in the second one. -/
def twoLayers : List Visit :=
  [.leaf ⟨[],[front 8 [0]],by decide⟩,.value [0],.leaf ⟨[],[front 8 path],by decide⟩,.leaf ⟨path,[front 8 [2]],by decide⟩,
    .value (path ++ [2]),.leaf ⟨path,[front 8 [7]],by decide⟩,.value (path ++ [7])]

theorem boundary_shortcut_two_layers :
    let scan (always : Bool) := (accepting (path ++ [5])).scan always twoLayers (Scanner.init ())
    scan false = scan true ∧ (scan false).called = [path ++ [2],[0]] ∧
      [1,3,4,6].map (fun n => ((accepting (path ++ [5])).scan false (twoLayers.take n) (Scanner.init ())).boundaryCompar) =
        [false,true,false,true] :=
  ⟨boundary_shortcut (accepting (path ++ [5])) (by decide) twoLayers
    ⟨⟨[0],rfl,by decide⟩,⟨[2],rfl,by decide⟩,⟨[7],rfl,by decide⟩,trivial⟩ (),by decide,by decide⟩

def twoKeys : List Visit := [.leaf ⟨[],[front 8 [1],front 8 [3]],by decide⟩,.value [1],.value [3]]

/-- Without an end key the flag never rises and every key is taken; compared with the empty string
no key would be. -/
theorem empty_boundary_differs : Walk none twoKeys ∧
    ((accepting []).scan false twoKeys (Scanner.init ())).called = [[3],[1]] ∧
    ((accepting []).scan true twoKeys (Scanner.init ())).called = [] :=
  ⟨⟨⟨[1],rfl,by decide⟩,⟨[3],rfl,by decide⟩,trivial⟩,by decide,by decide⟩

end Config
end AlNiCo.Sto.RangeScanner
