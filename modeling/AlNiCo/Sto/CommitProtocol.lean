import AlNiCo.Library.ChunkedWalk

/-! `try_commit` and `stop`: lock the written items, check the read ones, install, clean up and
unlock. What the items' objects answer is given from outside; what they are asked is logged. -/
namespace AlNiCo.Sto.CommitProtocol
open Library ChunkedWalk List Bool

def tsetChunk : Nat := 512
def tsetInitialCapacity : Nat := 512
def tsetMaxCapacity : Nat := 32768

/-- The flags of a transaction's item; the owner and the key of the item are its `key`. -/
structure TransItem (K : Type) where
  key : K
  hasRead : Bool := false
  hasWrite : Bool := false
  hasPredicate : Bool := false
  needsUnlock : Bool := false
  lockedAtCommit : Bool := false
  hasInsert : Bool := false
  hasDelete : Bool := false

/-- A transaction about to commit. Every write sets `any_writes_`, and the chunks are limited. -/
structure Transaction (K : Type) where
  item : Nat → TransItem K
  tsetSize : Nat
  anyWrites : Bool
  anyNonopaque : Bool
  mayDuplicateItems : Bool
  size_le : tsetSize ≤ tsetMaxCapacity
  anyWrites_of_write : ∀ i < tsetSize, (item i).hasWrite = true → anyWrites = true

/-- What the object of an item is asked or told, with the object's answer. -/
inductive Event where
  | lock (i : Nat) (ok : Bool)
  | checkPredicate (i : Nat) (ok : Bool)
  | check (i : Nat) (ok : Bool)
  | install (i : Nat)
  | cleanup (i : Nat) (committed : Bool)
  | release (i : Nat)
deriving DecidableEq

structure Replies where
  lock : Nat → Bool
  checkPredicate : Nat → Bool
  check : Nat → Bool

structure Commit (K : Type) where
  slot : Place → TransItem K
  writeset : List Nat
  firstWrite : Nat
  log : List Event

namespace Commit
variable {K : Type}

def note (e : Event) (s : Commit K) : Commit K := { s with log := s.log++[e] }

/-- A visit of one item: its flags change and its object is told something. -/
def visit (flags : TransItem K → TransItem K) (events : Nat → TransItem K → List Event) (it : Place)
    (s : Commit K) : Commit K :=
  { s with
    slot := Function.update s.slot it (flags (s.slot it))
    log := s.log++events (it.index tsetChunk) (s.slot it) }

/-- `writeset[nwriteset++] = tidx`; the first write is kept in 16 bits. -/
def addWrite (tidx : Nat) (item : TransItem K) (s : Commit K) : Commit K :=
  if item.hasWrite then
    { s with
      writeset := s.writeset++[tidx]
      firstWrite := if s.writeset = [] then tidx % 2^16 else s.firstWrite }
  else s

end Commit

section
variable {K : Type}

def lockFlags (item : TransItem K) : TransItem K :=
  if item.hasWrite then { item with needsUnlock := true, lockedAtCommit := true } else item

def lockEvents (i : Nat) (item : TransItem K) : List Event :=
  if item.hasWrite && !item.needsUnlock then [.lock i true] else []

def lockStep (r : Replies) (tidx : Nat) (it : Place) (s : Commit K) : Except (Commit K) (Commit K) :=
  let i := it.index tsetChunk
  let item := s.slot it
  let s := s.addWrite tidx item
  if item.hasWrite && !item.needsUnlock && !r.lock i then .error (s.note (.lock i false))
  else
    let s := s.visit lockFlags lockEvents it
    if !item.hasRead && item.hasPredicate then
      if r.checkPredicate i then .ok (s.note (.checkPredicate i true)) else .error (s.note (.checkPredicate i false))
    else .ok s

def precedingDuplicateRead [DecidableEq K] (s : Commit K) (i : Nat) : Bool :=
  (List.range i).any fun j =>
    decide ((s.slot (place tsetChunk j)).key = (s.slot (place tsetChunk i)).key) && (s.slot (place tsetChunk j)).hasRead

def checkStep [DecidableEq K] (mayDuplicateItems : Bool) (r : Replies) (tidx : Nat) (it : Place) (s : Commit K) :
    Except (Commit K) (Commit K) :=
  let i := it.index tsetChunk
  let item := s.slot it
  if item.hasRead && (item.lockedAtCommit || !item.needsUnlock) then
    if !r.check i && (!mayDuplicateItems || !precedingDuplicateRead s tidx) then .error (s.note (.check i false))
    else .ok (s.note (.check i (r.check i)))
  else .ok s

/-- `install` of a row: a deleted row keeps its lock, any other is unlocked with its new version. -/
def installFlags (item : TransItem K) : TransItem K :=
  if item.hasDelete then item else { item with needsUnlock := false }

def installEvents (i : Nat) (item : TransItem K) : List Event :=
  if item.hasDelete then [.install i] else [.install i,.release i]

/-- `cleanup` of a row removes it when its delete committed or its insert did not. -/
def cleanupFlags (committed : Bool) (item : TransItem K) : TransItem K :=
  if item.hasWrite && (if committed then item.hasDelete else item.hasInsert) then
    { item with needsUnlock := false }
  else item

def cleanupEvents (committed : Bool) (i : Nat) (item : TransItem K) : List Event :=
  if item.hasWrite then [.cleanup i committed] else []

def unlockEvents (i : Nat) (item : TransItem K) : List Event :=
  if item.needsUnlock then [.release i] else []

/-- Items of the first capacity are addressed without their chunk. -/
def slotAt (idx : Nat) : Place := if idx < tsetInitialCapacity then ⟨0,idx⟩ else place tsetChunk idx

def Transaction.stop (t : Transaction K) (committed : Bool) (s : Commit K) : Commit K :=
  let s :=
    if !t.anyWrites then s
    else if committed then
      s.writeset.reverse.foldl (fun s idx => s.visit (cleanupFlags committed) (cleanupEvents committed) (slotAt idx)) s
    else
      backward tsetChunk (fun it s => s.visit (cleanupFlags committed) (cleanupEvents committed) it)
        (t.tsetSize-s.firstWrite) t.tsetSize (place tsetChunk t.tsetSize) s
  backward tsetChunk (fun it s => s.visit id unlockEvents it) t.tsetSize t.tsetSize (place tsetChunk t.tsetSize) s

def Transaction.begin (t : Transaction K) : Commit K := ⟨fun p => t.item (p.index tsetChunk),[],0,[]⟩

/-- Whether the transaction commits, and what its objects were asked and told. -/
def Transaction.tryCommit [DecidableEq K] (t : Transaction K) (r : Replies) : Bool × Commit K :=
  if !t.anyWrites && !t.anyNonopaque then (true,t.stop true t.begin)
  else match forward tsetChunk (lockStep r) t.tsetSize 0 ⟨0,0⟩ t.begin with
    | .error s => (false,t.stop false s)
    | .ok s =>
      let s := { s with firstWrite := s.writeset.headD t.tsetSize % 2^16 }
      match forward tsetChunk (checkStep t.mayDuplicateItems r) t.tsetSize 0 ⟨0,0⟩ s with
      | .error s => (false,t.stop false s)
      | .ok s => (true,t.stop true (s.writeset.foldl (fun s idx => s.visit installFlags installEvents (slotAt idx)) s))

end

section
variable {K : Type}

def Event.asks : Event → Bool
  | .lock _ _ | .checkPredicate _ _ | .check _ _ => true
  | .install _ | .cleanup _ _ | .release _ => false

structure Locked (t : Transaction K) (k : Nat) (s : Commit K) : Prop where
  slots : ∀ i, s.slot (place tsetChunk i) = if i < k then lockFlags (t.item i) else t.item i
  locks : ∀ i, .lock i true ∈ s.log ↔ i < k ∧ (t.item i).hasWrite = true ∧ (t.item i).needsUnlock = false
  asks : ∀ e ∈ s.log, e.asks = true
  first : ∀ i < t.tsetSize, (t.item i).hasWrite = true → s.firstWrite ≤ i
  first_le : s.firstWrite ≤ t.tsetSize

structure Locking (t : Transaction K) (k : Nat) (s : Commit K) : Prop extends Locked t k s where
  writeset : s.writeset = (List.range k).filter fun i => (t.item i).hasWrite
  predicates : ∀ i < k, (t.item i).hasRead = false → (t.item i).hasPredicate = true → .checkPredicate i true ∈ s.log

def Transaction.Duplicate (t : Transaction K) (i : Nat) : Prop :=
  ∃ j < i, (t.item j).key = (t.item i).key ∧ (t.item j).hasRead = true

/-- The item is checked: it was read, and no lock has covered it since before the commit. -/
def TransItem.Checked (item : TransItem K) : Prop :=
  item.hasRead = true ∧ (item.hasWrite = true ∨ item.lockedAtCommit = true ∨ item.needsUnlock = false)

structure Checking (t : Transaction K) (k : Nat) (s : Commit K) : Prop extends Locking t t.tsetSize s where
  checks : ∀ i < k, (t.item i).Checked → .check i true ∈ s.log ∨ (t.mayDuplicateItems = true ∧ t.Duplicate i)

theorem locking_begin (t : Transaction K) : Locking t 0 t.begin where
  slots i := by simp [Transaction.begin,index_place]
  locks i := by simp [Transaction.begin]
  asks e he := by simp [Transaction.begin] at he
  first i _ _ := Nat.zero_le i
  first_le := Nat.zero_le _
  writeset := rfl
  predicates i hi := absurd hi (Nat.not_lt_zero i)

private theorem Locking.addWrite {t : Transaction K} {k : Nat} {s : Commit K} (h : Locking t k s) (hk : k < t.tsetSize) :
    (s.addWrite k (t.item k)).slot = s.slot ∧ (s.addWrite k (t.item k)).log = s.log ∧
      (s.addWrite k (t.item k)).writeset = ((range (k+1)).filter fun i => (t.item i).hasWrite) ∧
      (∀ i < t.tsetSize, (t.item i).hasWrite = true → (s.addWrite k (t.item k)).firstWrite ≤ i) ∧
      (s.addWrite k (t.item k)).firstWrite ≤ t.tsetSize := by
  have hsize := t.size_le
  have hmod : k % 2^16 = k := Nat.mod_eq_of_lt (hk.trans_le (hsize.trans (by decide)))
  rw [range_succ,filter_append,← h.writeset]
  by_cases hw : (t.item k).hasWrite = true
  · simp only [Commit.addWrite,hw,if_true,hmod]
    refine ⟨trivial,trivial,by simp [hw],?_,?_⟩
    · intro i hi hwi
      split_ifs with hnil
      · -- no write before item k, so no written item is below it
        by_contra hlt
        have hmem : i ∈ s.writeset := by
          rw [h.writeset]
          exact mem_filter.2 ⟨mem_range.2 (by omega),hwi⟩
        rw [hnil] at hmem
        exact not_mem_nil hmem
      · exact h.first i hi hwi
    · split_ifs
      · exact hk.le
      · exact h.first_le
  · simp only [Commit.addWrite,hw,false_eq_true,if_false]
    exact ⟨trivial,trivial,by simp [hw],h.first,h.first_le⟩

private theorem mem_note_iff {s : Commit K} {e e' : Event} : e ∈ (s.note e').log ↔ e ∈ s.log ∨ e = e' := by
  simp [Commit.note]

private theorem asks_note {s : Commit K} {e' : Event} (hs : ∀ e ∈ s.log, e.asks = true) (he : e'.asks = true) :
    ∀ e ∈ (s.note e').log, e.asks = true := by
  intro e hmem
  rcases mem_note_iff.1 hmem with h | rfl
  · exact hs e h
  · exact he

/-- A question other than a granted lock changes nothing the first loop has reached. -/
private theorem Locked.note {t : Transaction K} {k : Nat} {s : Commit K} (h : Locked t k s) {e : Event} (he : e.asks = true)
    (hlock : ∀ i, e ≠ .lock i true) : Locked t k (s.note e) where
  slots := h.slots
  locks i := by
    rw [mem_note_iff,← h.locks]
    exact or_iff_left fun heq => hlock i heq.symm
  asks := asks_note h.asks he
  first := h.first
  first_le := h.first_le

private theorem Locking.note {t : Transaction K} {k : Nat} {s : Commit K} (h : Locking t k s) {e : Event} (he : e.asks = true)
    (hlock : ∀ i, e ≠ .lock i true) : Locking t k (s.note e) where
  toLocked := h.toLocked.note he hlock
  writeset := h.writeset
  predicates i hi hr hp := mem_note_iff.2 (.inl (h.predicates i hi hr hp))

/-- Item `k` has its lock, and its flags say so. -/
private theorem Locking.visit {t : Transaction K} {k : Nat} {s : Commit K} (h : Locking t k s) (hk : k < t.tsetSize) :
    Locked t (k+1) ((s.addWrite k (t.item k)).visit lockFlags lockEvents (place tsetChunk k)) := by
  obtain ⟨hslot,hlog,-,hfirst,hle⟩ := h.addWrite hk
  have hitem : s.slot (place tsetChunk k) = t.item k := by
    rw [h.slots,if_neg (Nat.lt_irrefl k)]
  refine ⟨fun i => ?_,fun i => ?_,?_,hfirst,hle⟩
  · simp only [Commit.visit,hslot]
    by_cases hi : i = k
    · subst hi
      rw [Function.update_self,hitem,if_pos (Nat.lt_succ_self i)]
    · rw [Function.update_of_ne ((place_injective tsetChunk).ne hi),h.slots]
      exact if_congr (by omega) rfl rfl
  · simp only [Commit.visit,hslot,hlog,index_place,hitem,mem_append,h.locks,lockEvents]
    by_cases hi : i = k
    · subst hi
      cases hw : (t.item i).hasWrite <;> cases hn : (t.item i).needsUnlock <;> simp
    · have hne : ¬ Event.lock i true ∈ (if ((t.item k).hasWrite && !(t.item k).needsUnlock) = true then [Event.lock k true] else []) := by
        split_ifs <;> simp [hi]
      have hlt : i < k+1 ↔ i < k := by omega
      rw [or_iff_left hne,hlt]
  · intro e he
    simp only [Commit.visit,hslot,hlog,hitem,mem_append,lockEvents] at he
    rcases he with he | he
    · exact h.asks e he
    · split_ifs at he
      · obtain rfl := mem_singleton.1 he
        rfl
      · exact absurd he not_mem_nil

theorem lockStep_ends {t : Transaction K} (r : Replies) {k : Nat} {s : Commit K} (hk : k < t.tsetSize) (h : Locking t k s) :
    Ends (Locking t (k+1)) (fun s => ∃ k ≤ t.tsetSize, Locked t k s) (lockStep r k (place tsetChunk k) s) := by
  obtain ⟨hslot,hlog,hws,hfirst,hle⟩ := h.addWrite hk
  have hitem : s.slot (place tsetChunk k) = t.item k := by
    rw [h.slots,if_neg (Nat.lt_irrefl k)]
  have hv := h.visit hk
  have hpast : ∀ i < k, (t.item i).hasRead = false → (t.item i).hasPredicate = true →
      .checkPredicate i true ∈ ((s.addWrite k (t.item k)).visit lockFlags lockEvents (place tsetChunk k)).log := by
    intro i hi hr hp
    simp only [Commit.visit,hlog]
    exact mem_append_left _ (h.predicates i hi hr hp)
  simp only [lockStep,index_place,hitem]
  split_ifs with hfail hp hok
  · refine ⟨k,hk.le,?_⟩
    have hsame : Locked t k (s.addWrite k (t.item k)) :=
      ⟨fun i => hslot ▸ h.slots i,fun i => hlog ▸ h.locks i,hlog ▸ h.asks,hfirst,hle⟩
    exact hsame.note rfl (by simp)
  · refine ⟨hv.note rfl (by simp),hws,fun i hi hr hp' => mem_note_iff.2 ?_⟩
    rcases Nat.lt_succ_iff_lt_or_eq.1 hi with hi | rfl
    · exact .inl (hpast i hi hr hp')
    · exact .inr rfl
  · exact ⟨k+1,hk,hv.note rfl (by simp)⟩
  · refine ⟨hv,hws,fun i hi hr hp' => ?_⟩
    rcases Nat.lt_succ_iff_lt_or_eq.1 hi with hi | rfl
    · exact hpast i hi hr hp'
    · exact absurd (by simp [hr,hp']) hp

/-- `first_write_ = writeset[0]` after the first loop; without a write it is the size. -/
private theorem Locking.firstWrite {t : Transaction K} {s : Commit K} (h : Locking t t.tsetSize s) :
    Locking t t.tsetSize { s with firstWrite := s.writeset.headD t.tsetSize % 2^16 } := by
  have hmem : ∀ i ∈ s.writeset, i < t.tsetSize := by
    intro i hi
    rw [h.writeset] at hi
    exact mem_range.1 (mem_filter.1 hi).1
  have hsorted : s.writeset.Pairwise (· < ·) := by
    rw [h.writeset]
    exact pairwise_lt_range.filter _
  have hhead : s.writeset.headD t.tsetSize ≤ t.tsetSize ∧ ∀ i ∈ s.writeset, s.writeset.headD t.tsetSize ≤ i := by
    cases hws : s.writeset with
    | nil => simp
    | cons w ws =>
      rw [hws] at hmem hsorted
      refine ⟨(hmem w mem_cons_self).le,fun i hi => ?_⟩
      rcases mem_cons.1 hi with rfl | hi
      · exact le_rfl
      · exact (rel_of_pairwise_cons hsorted hi).le
  have hle : s.writeset.headD t.tsetSize % 2^16 ≤ s.writeset.headD t.tsetSize := Nat.mod_le _ _
  refine ⟨⟨h.slots,h.locks,h.asks,fun i hi hw => hle.trans (hhead.2 i ?_),hle.trans hhead.1⟩,h.writeset,h.predicates⟩
  rw [h.writeset]
  exact mem_filter.2 ⟨mem_range.2 hi,hw⟩

private theorem lockFlags_key (item : TransItem K) : (lockFlags item).key = item.key := by
  unfold lockFlags
  split_ifs <;> rfl

private theorem lockFlags_hasRead (item : TransItem K) : (lockFlags item).hasRead = item.hasRead := by
  unfold lockFlags
  split_ifs <;> rfl

private theorem checked_iff (item : TransItem K) :
    ((lockFlags item).hasRead && ((lockFlags item).lockedAtCommit || !(lockFlags item).needsUnlock)) = true ↔ item.Checked := by
  cases hw : item.hasWrite <;> simp [lockFlags,TransItem.Checked,hw]

private theorem Locked.precedingDuplicateRead [DecidableEq K] {t : Transaction K} {s : Commit K} (h : Locked t t.tsetSize s)
    {i : Nat} (hi : i < t.tsetSize) : precedingDuplicateRead s i = true ↔ t.Duplicate i := by
  have hslot (j : Nat) (hj : j ≤ i) : s.slot (place tsetChunk j) = lockFlags (t.item j) := by
    rw [h.slots,if_pos (by omega)]
  simp only [CommitProtocol.precedingDuplicateRead,any_eq_true,mem_range,and_eq_true,decide_eq_true_eq,Transaction.Duplicate]
  apply exists_congr
  intro j
  apply and_congr_right
  intro hj
  rw [hslot j hj.le,hslot i le_rfl,lockFlags_key,lockFlags_key,lockFlags_hasRead]

theorem checkStep_ends [DecidableEq K] {t : Transaction K} (r : Replies) {k : Nat} {s : Commit K} (hk : k < t.tsetSize)
    (h : Checking t k s) :
    Ends (Checking t (k+1)) (fun s => ∃ k ≤ t.tsetSize, Locked t k s)
      (checkStep t.mayDuplicateItems r k (place tsetChunk k) s) := by
  have hitem : s.slot (place tsetChunk k) = lockFlags (t.item k) := by
    rw [h.slots,if_pos hk]
  simp only [checkStep,index_place,hitem]
  split_ifs with hread hfail
  · exact ⟨t.tsetSize,le_rfl,h.toLocked.note rfl (by simp)⟩
  · refine ⟨h.toLocking.note rfl (by simp),fun i hi hc => ?_⟩
    rcases Nat.lt_succ_iff_lt_or_eq.1 hi with hi | rfl
    · rcases h.checks i hi hc with hmem | hdup
      · exact .inl (mem_note_iff.2 (.inl hmem))
      · exact .inr hdup
    · -- the item passed its check, or an earlier item stands for it
      cases hreply : r.check i with
      | true => exact .inl (mem_note_iff.2 (.inr rfl))
      | false =>
        refine .inr ?_
        rw [← h.precedingDuplicateRead hk]
        simpa [hreply] using hfail
  · refine ⟨h.toLocking,fun i hi hc => ?_⟩
    rcases Nat.lt_succ_iff_lt_or_eq.1 hi with hi | rfl
    · exact h.checks i hi hc
    · exact absurd ((checked_iff _).2 hc) hread

/-- Visits of different items do not meet. -/
theorem foldl_visit (flags : TransItem K → TransItem K) (events : Nat → TransItem K → List Event) {l : List Nat}
    (hl : l.Nodup) (s : Commit K) :
    let s' := l.foldl (fun s i => s.visit flags events (place tsetChunk i)) s
    s'.log = s.log++l.flatMap (fun i => events i (s.slot (place tsetChunk i))) ∧
      (∀ i, s'.slot (place tsetChunk i) = if i ∈ l then flags (s.slot (place tsetChunk i)) else s.slot (place tsetChunk i)) ∧
      s'.writeset = s.writeset ∧ s'.firstWrite = s.firstWrite := by
  induction l generalizing s with
  | nil => simp
  | cons i l ih =>
    obtain ⟨hi,hl⟩ := nodup_cons.1 hl
    obtain ⟨hlog,hslot,hws,hfw⟩ := ih hl (s.visit flags events (place tsetChunk i))
    have hother (j : Nat) (hj : j ≠ i) : (s.visit flags events (place tsetChunk i)).slot (place tsetChunk j) =
        s.slot (place tsetChunk j) := Function.update_of_ne ((place_injective tsetChunk).ne hj) _ _
    have hself : (s.visit flags events (place tsetChunk i)).slot (place tsetChunk i) = flags (s.slot (place tsetChunk i)) :=
      Function.update_self _ _ _
    refine ⟨?_,fun j => ?_,hws,hfw⟩
    · rw [foldl_cons,hlog,flatMap_cons,← append_assoc]
      refine congr (congrArg _ ?_) (flatMap_congr fun j hj => ?_)
      · simp only [Commit.visit,index_place]
      · rw [hother j fun h => hi (h ▸ hj)]
    · rw [foldl_cons,hslot]
      by_cases hj : j = i
      · subst hj
        rw [if_neg hi,hself,if_pos mem_cons_self]
      · rw [hother j hj]
        exact if_congr (by simp [hj]) rfl rfl

/-- An event that only item `i` causes is counted where item `i` is visited. -/
theorem count_flatMap_of_nodup {l : List Nat} (hl : l.Nodup) {f : Nat → List Event} {e : Event} {i : Nat}
    (h : ∀ j, j ≠ i → e ∉ f j) : (l.flatMap f).count e = if i ∈ l then (f i).count e else 0 := by
  induction l with
  | nil => simp
  | cons j l ih =>
    obtain ⟨hj,hl⟩ := nodup_cons.1 hl
    rw [flatMap_cons,count_append,ih hl]
    by_cases hji : j = i
    · subst hji
      simp [hj]
    · rw [count_eq_zero.2 (h j hji),Nat.zero_add]
      exact if_congr (by simp [Ne.symm hji]) rfl rfl

private theorem slotAt_eq (idx : Nat) : slotAt idx = place tsetChunk idx := by
  unfold slotAt
  split_ifs with h
  · have hlt : idx < tsetChunk := h
    rw [place,Nat.div_eq_of_lt hlt,Nat.mod_eq_of_lt hlt]
  · rfl

/-- A walk down to slot `lo` as visits of the items, the last one first. -/
private theorem backward_visit (flags : TransItem K → TransItem K) (events : Nat → TransItem K → List Event) {lo n}
    (hlo : lo ≤ n) (s : Commit K) :
    backward tsetChunk (fun it s => s.visit flags events it) (n-lo) n (place tsetChunk n) s =
      (range' lo (n-lo)).reverse.foldl (fun s i => s.visit flags events (place tsetChunk i)) s := by
  have h := backward_eq tsetChunk (fun it (s : Commit K) => s.visit flags events it) (n-lo) lo s
  rw [Nat.add_sub_cancel' hlo,foldl_map] at h
  exact h

/-- The state from which `stop` cleans up: what it will visit covers the written items. -/
structure Stopping (t : Transaction K) (committed : Bool) (s : Commit K) : Prop where
  hasWrite : ∀ i, (s.slot (place tsetChunk i)).hasWrite = (t.item i).hasWrite
  first : committed = false → s.firstWrite ≤ t.tsetSize ∧ ∀ i < t.tsetSize, (t.item i).hasWrite = true → s.firstWrite ≤ i
  writeset : committed = true → s.writeset = (List.range t.tsetSize).filter fun i => (t.item i).hasWrite

/-- The items `stop` visits first, every written one among them. -/
private theorem stop_cleanup {t : Transaction K} {committed : Bool} {s : Commit K} (h : Stopping t committed s) :
    ∃ l : List Nat, l.Nodup ∧ (∀ i < t.tsetSize, (t.item i).hasWrite = true → i ∈ l) ∧
      t.stop committed s = (range t.tsetSize).reverse.foldl (fun s i => s.visit id unlockEvents (place tsetChunk i))
        (l.foldl (fun s i => s.visit (cleanupFlags committed) (cleanupEvents committed) (place tsetChunk i)) s) := by
  have hunlock (s : Commit K) := backward_visit id unlockEvents (Nat.zero_le t.tsetSize) s
  simp only [Nat.sub_zero,← List.range_eq_range'] at hunlock
  simp only [Transaction.stop,hunlock]
  cases hany : t.anyWrites with
  | false =>
    refine ⟨[],List.nodup_nil,fun i hi hw => ?_,rfl⟩
    have := t.anyWrites_of_write i hi hw
    rw [hany] at this
    cases this
  | true => cases committed with
    | true =>
      refine ⟨s.writeset.reverse,?_,fun i hi hw => ?_,?_⟩
      · rw [h.writeset rfl]
        exact List.nodup_reverse.2 (List.nodup_range.filter _)
      · rw [List.mem_reverse,h.writeset rfl]
        exact List.mem_filter.2 ⟨List.mem_range.2 hi,hw⟩
      · simp only [Bool.not_true,Bool.false_eq_true,if_false,if_true,slotAt_eq]
    | false =>
      obtain ⟨hle,hfirst⟩ := h.first rfl
      refine ⟨(range' s.firstWrite (t.tsetSize-s.firstWrite)).reverse,?_,fun i hi hw => ?_,?_⟩
      · exact List.nodup_reverse.2 List.nodup_range'
      · rw [List.mem_reverse,List.mem_range'_1]
        exact ⟨hfirst i hi hw,by omega⟩
      · simp only [Bool.not_true,Bool.false_eq_true,if_false]
        rw [backward_visit _ _ hle]

private theorem eq_of_mem_cleanupEvents {committed : Bool} {i : Nat} {item : TransItem K} {e : Event}
    (h : e ∈ cleanupEvents committed i item) : e = .cleanup i committed := by
  unfold cleanupEvents at h
  split_ifs at h
  · exact mem_singleton.1 h
  · exact absurd h not_mem_nil

private theorem eq_of_mem_unlockEvents {i : Nat} {item : TransItem K} {e : Event} (h : e ∈ unlockEvents i item) : e = .release i := by
  unfold unlockEvents at h
  split_ifs at h
  · exact mem_singleton.1 h
  · exact absurd h not_mem_nil

/-- What `stop` adds to the log: one cleanup of every written item, one release of every item that
still records a lock. -/
theorem stop_log {t : Transaction K} {committed : Bool} {s : Commit K} (h : Stopping t committed s) :
    ∃ l : List Event, (t.stop committed s).log = s.log++l ∧ (∀ i, .install i ∉ l) ∧ (∀ i ok, .lock i ok ∉ l) ∧
      (∀ i < t.tsetSize, ∀ c, l.count (.cleanup i c) = if c = committed ∧ (t.item i).hasWrite = true then 1 else 0) ∧
      ∀ i < t.tsetSize, l.count (.release i) = if (cleanupFlags committed (s.slot (place tsetChunk i))).needsUnlock then 1 else 0 := by
  obtain ⟨l,hl,hcover,hstop⟩ := stop_cleanup h
  obtain ⟨hlog,hslot,-,-⟩ := foldl_visit (cleanupFlags committed) (cleanupEvents committed) hl s
  obtain ⟨hlog',-,-,-⟩ := foldl_visit id unlockEvents (nodup_reverse.2 (nodup_range (n := t.tsetSize)))
    (l.foldl (fun s i => s.visit (cleanupFlags committed) (cleanupEvents committed) (place tsetChunk i)) s)
  rw [← hstop,hlog,append_assoc] at hlog'
  set s' := l.foldl (fun s i => s.visit (cleanupFlags committed) (cleanupEvents committed) (place tsetChunk i)) s
  set lc := l.flatMap fun i => cleanupEvents committed i (s.slot (place tsetChunk i)) with hlc
  set lu := (range t.tsetSize).reverse.flatMap fun i => unlockEvents i (s'.slot (place tsetChunk i)) with hlu
  have hmem {e : Event} (he : e ∈ lc) : ∃ i, e = .cleanup i committed := by
    obtain ⟨i,-,he⟩ := mem_flatMap.1 he
    exact ⟨i,eq_of_mem_cleanupEvents he⟩
  have hmem' {e : Event} (he : e ∈ lu) : ∃ i, e = .release i := by
    obtain ⟨i,-,he⟩ := mem_flatMap.1 he
    exact ⟨i,eq_of_mem_unlockEvents he⟩
  refine ⟨lc++lu,hlog',fun i hi => ?_,fun i ok hi => ?_,fun i hi c => ?_,fun i hi => ?_⟩
  · rcases mem_append.1 hi with he | he
    · obtain ⟨_,⟨⟩⟩ := hmem he
    · obtain ⟨_,⟨⟩⟩ := hmem' he
  · rcases mem_append.1 hi with he | he
    · obtain ⟨_,⟨⟩⟩ := hmem he
    · obtain ⟨_,⟨⟩⟩ := hmem' he
  · have hlu0 : lu.count (.cleanup i c) = 0 := count_eq_zero.2 fun he => by
      obtain ⟨_,⟨⟩⟩ := hmem' he
    have hlc1 : lc.count (.cleanup i c) = if i ∈ l then (cleanupEvents committed i (s.slot (place tsetChunk i))).count (.cleanup i c)
        else 0 := by
      apply count_flatMap_of_nodup hl
      intro j hj he
      cases eq_of_mem_cleanupEvents he
      exact hj rfl
    rw [count_append,hlu0,hlc1,Nat.add_zero,cleanupEvents,h.hasWrite]
    by_cases hw : (t.item i).hasWrite = true
    · by_cases hc : c = committed
      · subst hc
        simp [hcover i hi hw,hw]
      · simp [hw,hc,Ne.symm hc]
    · simp [hw]
  · have hlc0 : lc.count (.release i) = 0 := count_eq_zero.2 fun he => by
      obtain ⟨_,⟨⟩⟩ := hmem he
    have hlu1 : lu.count (.release i) = (unlockEvents i (s'.slot (place tsetChunk i))).count (.release i) := by
      rw [hlu,count_flatMap_of_nodup (nodup_reverse.2 nodup_range) (i := i),if_pos (mem_reverse.2 (mem_range.2 hi))]
      intro j hj he
      cases eq_of_mem_unlockEvents he
      exact hj rfl
    -- an item the cleanup does not visit is not written, and its flags stay
    have hsame : s'.slot (place tsetChunk i) = cleanupFlags committed (s.slot (place tsetChunk i)) := by
      rw [hslot]
      split_ifs with hil
      · rfl
      · have hw : (s.slot (place tsetChunk i)).hasWrite = false := by
          rw [h.hasWrite]
          exact eq_false_of_not_eq_true fun hw => hil (hcover i hi hw)
        simp [cleanupFlags,hw]
    rw [count_append,hlc0,hlu1,hsame,Nat.zero_add,unlockEvents]
    split_ifs <;> simp

/-- The item's lock is recorded: it was taken during the execution or by this commit. -/
def Recorded (t : Transaction K) (log : List Event) (i : Nat) : Prop :=
  (t.item i).needsUnlock = true ∨ .lock i true ∈ log

/-- The row is taken out of its index: its delete committed, or its insert did not. -/
def Transaction.Removes (t : Transaction K) (committed : Bool) (i : Nat) : Prop :=
  (t.item i).hasWrite = true ∧ (if committed then (t.item i).hasDelete else (t.item i).hasInsert) = true

instance (t : Transaction K) (log : List Event) (i : Nat) : Decidable (Recorded t log i) :=
  inferInstanceAs (Decidable (_ ∨ _))

instance (t : Transaction K) (committed : Bool) (i : Nat) : Decidable (t.Removes committed i) :=
  inferInstanceAs (Decidable (_ ∧ _))

structure Shape (t : Transaction K) (committed : Bool) (log : List Event) : Prop where
  none_on_failure : committed = false → ∀ i, .install i ∉ log
  once_on_success : committed = true → ∀ i, log.count (.install i) = if i < t.tsetSize ∧ (t.item i).hasWrite = true then 1 else 0
  locked_first : ∀ l l' i, log = l++.install i::l' → ∀ j < t.tsetSize, (t.item j).hasWrite = true → Recorded t l j
  checked_first : ∀ l l' i, log = l++.install i::l' → ∀ j < t.tsetSize, (t.item j).Checked →
    .check j true ∈ l ∨ (t.mayDuplicateItems = true ∧ t.Duplicate j)
  predicates_first : ∀ l l' i, log = l++.install i::l' → ∀ j < t.tsetSize, (t.item j).hasRead = false →
    (t.item j).hasPredicate = true → .checkPredicate j true ∈ l
  cleanup_once : ∀ i < t.tsetSize, ∀ c, log.count (.cleanup i c) = if c = committed ∧ (t.item i).hasWrite = true then 1 else 0
  release_once : ∀ i < t.tsetSize, log.count (.release i) = if Recorded t log i ∧ ¬ t.Removes committed i then 1 else 0

private theorem lockFlags_hasWrite (item : TransItem K) : (lockFlags item).hasWrite = item.hasWrite := by
  unfold lockFlags
  split_ifs <;> rfl

private theorem Locked.hasWrite {t : Transaction K} {k : Nat} {s : Commit K} (h : Locked t k s) (i : Nat) :
    (s.slot (place tsetChunk i)).hasWrite = (t.item i).hasWrite := by
  rw [h.slots]
  split_ifs
  · exact lockFlags_hasWrite _
  · rfl

private theorem Locked.recorded_iff {t : Transaction K} {k : Nat} {s : Commit K} (h : Locked t k s) {l : List Event}
    (hl : ∀ i ok, .lock i ok ∉ l) (i : Nat) :
    Recorded t (s.log++l) i ↔ (t.item i).needsUnlock = true ∨ (i < k ∧ (t.item i).hasWrite = true) := by
  rw [Recorded,mem_append,or_iff_left (hl i true),h.locks]
  cases (t.item i).needsUnlock <;> simp

private theorem count_eq_zero_of_asks {l : List Event} (hl : ∀ e ∈ l, e.asks = true) {e : Event} (he : e.asks = false) :
    l.count e = 0 := by
  apply count_eq_zero.2
  intro hmem
  rw [hl e hmem] at he
  cases he

private theorem cleanupFlags_needsUnlock (committed : Bool) (item : TransItem K) :
    (cleanupFlags committed item).needsUnlock = true ↔ item.needsUnlock = true ∧
      ¬ (item.hasWrite = true ∧ (if committed then item.hasDelete else item.hasInsert) = true) := by
  rw [← and_eq_true,cleanupFlags]
  by_cases h : (item.hasWrite && if committed = true then item.hasDelete else item.hasInsert) = true
  · rw [if_pos h]
    simp [h]
  · rw [if_neg h]
    exact (and_iff_left h).symm

private theorem lockFlags_needsUnlock (item : TransItem K) :
    (lockFlags item).needsUnlock = true ↔ item.needsUnlock = true ∨ item.hasWrite = true := by
  unfold lockFlags
  split_ifs with h <;> simp [h]

private theorem lockFlags_removes (committed : Bool) (item : TransItem K) :
    (if committed then (lockFlags item).hasDelete else (lockFlags item).hasInsert) =
      if committed then item.hasDelete else item.hasInsert := by
  unfold lockFlags
  split_ifs <;> rfl

/-- After the cleanup an item records its lock unless its row was removed. -/
private theorem needsUnlock_cleanup (t : Transaction K) (committed : Bool) {k i} :
    (cleanupFlags committed (if i < k then lockFlags (t.item i) else t.item i)).needsUnlock = true ↔
      ((t.item i).needsUnlock = true ∨ (i < k ∧ (t.item i).hasWrite = true)) ∧ ¬ t.Removes committed i := by
  rw [cleanupFlags_needsUnlock,Transaction.Removes]
  by_cases hik : i < k
  · rw [if_pos hik,lockFlags_needsUnlock,lockFlags_hasWrite,lockFlags_removes]
    simp [hik]
  · simp [hik]

/-- A commit that stops before it installs: it failed, or it had nothing to write. -/
private theorem shape_of_stop {t : Transaction K} {committed : Bool} {k : Nat} {s : Commit K} (h : Locked t k s)
    (hs : Stopping t committed s) (hread : committed = true → ∀ i < t.tsetSize, (t.item i).hasWrite = false) :
    Shape t committed (t.stop committed s).log := by
  obtain ⟨l,hlog,hinstall,hlock,hcleanup,hrelease⟩ := stop_log hs
  have hno (i : Nat) : .install i ∉ (t.stop committed s).log := by
    rw [hlog,mem_append]
    rintro (hmem | hmem)
    · exact absurd (h.asks _ hmem) Bool.false_ne_true
    · exact hinstall i hmem
  have hcount (i : Nat) (hi : i < t.tsetSize) : (t.stop committed s).log.count (.release i) =
      if Recorded t (t.stop committed s).log i ∧ ¬ t.Removes committed i then 1 else 0 := by
    rw [hlog,count_append,count_eq_zero_of_asks h.asks rfl,Nat.zero_add,hrelease i hi,h.slots]
    refine if_congr ((needsUnlock_cleanup t committed).trans ?_) rfl rfl
    rw [h.recorded_iff hlock]
  have habsurd {l l' : List Event} {i : Nat} {P : Prop} (heq : (t.stop committed s).log = l++.install i::l') : P := by
    refine absurd ?_ (hno i)
    rw [heq]
    exact mem_append_right _ mem_cons_self
  refine ⟨fun _ => hno,fun hc i => ?_,fun _ _ _ h => habsurd h,fun _ _ _ h => habsurd h,fun _ _ _ h => habsurd h,?_,hcount⟩
  · rw [count_eq_zero.2 (hno i),if_neg]
    rintro ⟨hi,hw⟩
    rw [hread hc i hi] at hw
    cases hw
  · intro i hi c
    rw [hlog,count_append,count_eq_zero_of_asks h.asks rfl,Nat.zero_add,hcleanup i hi]

private theorem installFlags_hasWrite (item : TransItem K) : (installFlags item).hasWrite = item.hasWrite := by
  unfold installFlags
  split_ifs <;> rfl

private theorem mem_installEvents {i : Nat} {item : TransItem K} {e : Event} (h : e ∈ installEvents i item) :
    e = .install i ∨ e = .release i := by
  unfold installEvents at h
  split_ifs at h
  · exact .inl (mem_singleton.1 h)
  · simpa using h

/-- What lies before an install holds every question asked before the installs. -/
private theorem append_of_install {l₀ m l l' : List Event} {i : Nat} (hasks : ∀ e ∈ l₀, e.asks = true)
    (h : l₀++m = l++.install i::l') : ∃ c, l = l₀++c := by
  rcases append_eq_append_iff.1 h with ⟨c,hl,-⟩ | ⟨c,hl,hm⟩
  · exact ⟨c,hl⟩
  · cases c with
    | nil => exact ⟨[],by rw [hl,append_nil,append_nil]⟩
    | cons e c =>
      obtain ⟨rfl,-⟩ := List.cons.inj hm
      exact absurd (hasks (.install i) (hl ▸ mem_append_right _ mem_cons_self)) Bool.false_ne_true

/-- A commit that passed its checks. -/
private theorem shape_installed [DecidableEq K] {t : Transaction K} {s : Commit K} (h : Checking t t.tsetSize s) :
    Shape t true (t.stop true (s.writeset.foldl (fun s idx => s.visit installFlags installEvents (slotAt idx)) s)).log := by
  simp only [slotAt_eq]
  have hws : ∀ i, i ∈ s.writeset ↔ i < t.tsetSize ∧ (t.item i).hasWrite = true := by
    intro i
    rw [h.writeset,mem_filter,mem_range]
  have hnodup : s.writeset.Nodup := by
    rw [h.writeset]
    exact nodup_range.filter _
  obtain ⟨hlogs,hslot,hwss,-⟩ := foldl_visit installFlags installEvents hnodup s
  set s' := s.writeset.foldl (fun s i => s.visit installFlags installEvents (place tsetChunk i)) s
  set m := s.writeset.flatMap fun i => installEvents i (s.slot (place tsetChunk i)) with hm
  have hmem {e : Event} (he : e ∈ m) : ∃ i, e = .install i ∨ e = .release i := by
    obtain ⟨i,-,he⟩ := mem_flatMap.1 he
    exact ⟨i,mem_installEvents he⟩
  have hs : Stopping t true s' := by
    refine ⟨fun i => ?_,nofun,fun _ => hwss.trans h.writeset⟩
    rw [hslot]
    split_ifs
    · rw [installFlags_hasWrite,h.hasWrite]
    · exact h.hasWrite i
  obtain ⟨l,hlog,hinstall,hlock,hcleanup,hrelease⟩ := stop_log hs
  rw [hlogs] at hlog
  have hlock' : ∀ i ok, .lock i ok ∉ m++l := by
    intro i ok he
    rcases mem_append.1 he with he | he
    · obtain ⟨_,he | he⟩ := hmem he <;> cases he
    · exact hlock i ok he
  have hbefore {l₁ l₂ : List Event} {i : Nat} (heq : (t.stop true s').log = l₁++.install i::l₂) : ∃ c, l₁ = s.log++c := by
    rw [hlog,append_assoc] at heq
    exact append_of_install h.asks heq
  have hm1 {e : Event} {i : Nat} (he : e = .install i ∨ e = .release i) :
      m.count e = if i ∈ s.writeset then (installEvents i (s.slot (place tsetChunk i))).count e else 0 := by
    apply count_flatMap_of_nodup hnodup
    intro j hj hmem
    rcases he with rfl | rfl <;> rcases mem_installEvents hmem with he | he <;> cases he <;> exact hj rfl
  have hrecorded (i : Nat) (hi : i < t.tsetSize) : Recorded t (t.stop true s').log i ↔
      (t.item i).needsUnlock = true ∨ (t.item i).hasWrite = true := by
    rw [hlog,append_assoc,h.recorded_iff hlock']
    simp [hi]
  -- a written row is released by its install, unless it is deleted; any other item by stop
  have hcount (i : Nat) (hi : i < t.tsetSize) : (t.stop true s').log.count (.release i) =
      if Recorded t (t.stop true s').log i ∧ ¬ t.Removes true i then 1 else 0 := by
    have hslot' : s.slot (place tsetChunk i) = lockFlags (t.item i) := by
      rw [h.slots,if_pos hi]
    rw [hlog,count_append,count_append,count_eq_zero_of_asks h.asks rfl,hm1 (.inr rfl),hrelease i hi,Nat.zero_add,← hlog,hslot,hslot']
    by_cases hw : (t.item i).hasWrite = true
    · have hin : i ∈ s.writeset := (hws i).2 ⟨hi,hw⟩
      by_cases hd : (t.item i).hasDelete = true
      · simp [hin,hrecorded i hi,Transaction.Removes,installEvents,installFlags,cleanupFlags,lockFlags,hw,hd]
      · simp [hin,hrecorded i hi,Transaction.Removes,installEvents,installFlags,cleanupFlags,lockFlags,hw,hd]
    · have hout : i ∉ s.writeset := fun hin => hw ((hws i).1 hin).2
      simp [hout,hrecorded i hi,Transaction.Removes,cleanupFlags,lockFlags,hw]
  refine ⟨nofun,fun _ i => ?_,fun l₁ l₂ i heq j hj hw => ?_,fun l₁ l₂ i heq j hj hc => ?_,fun l₁ l₂ i heq j hj hr hp => ?_,?_,hcount⟩
  · rw [hlog,count_append,count_append,count_eq_zero_of_asks h.asks rfl,hm1 (.inl rfl),count_eq_zero.2 (hinstall i),
      Nat.zero_add,Nat.add_zero]
    refine if_congr (hws i) ?_ rfl
    unfold installEvents
    split_ifs <;> simp
  · obtain ⟨c,rfl⟩ := hbefore heq
    by_cases hn : (t.item j).needsUnlock = true
    · exact .inl hn
    · exact .inr (mem_append_left _ ((h.locks j).2 ⟨hj,hw,eq_false_of_not_eq_true hn⟩))
  · obtain ⟨c,rfl⟩ := hbefore heq
    exact (h.checks j hj hc).imp_left (mem_append_left _)
  · obtain ⟨c,rfl⟩ := hbefore heq
    exact mem_append_left _ (h.predicates j hj hr hp)
  · intro i hi c
    have hm0 : m.count (.cleanup i c) = 0 := count_eq_zero.2 fun he => by
      obtain ⟨_,he | he⟩ := hmem he <;> cases he
    rw [hlog,count_append,count_append,count_eq_zero_of_asks h.asks rfl,hm0,hcleanup i hi,Nat.zero_add]

/-- Every commit, whatever its items and wherever a lock, a predicate or a check fails, has its
shape; a lock stays behind on the rows it takes out of their index, and on no other. -/
theorem try_commit_shape [DecidableEq K] (t : Transaction K) (r : Replies) :
    Shape t (t.tryCommit r).1 (t.tryCommit r).2.log := by
  have hlocks := forward_ends tsetChunk (f := lockStep r) (i := 0) (n := t.tsetSize)
    (fun j hj s hs => lockStep_ends (t := t) r (by omega) hs) ⟨0,0⟩ (.inl (Nat.zero_mod _)) (locking_begin t)
  have hfail {s : Commit K} (h : ∃ k ≤ t.tsetSize, Locked t k s) : Shape t false (t.stop false s).log := by
    obtain ⟨k,-,h⟩ := h
    exact shape_of_stop h ⟨h.hasWrite,fun _ => ⟨h.first_le,h.first⟩,nofun⟩ nofun
  unfold Transaction.tryCommit
  split_ifs with hshort
  · have hnone : ∀ i < t.tsetSize, (t.item i).hasWrite = false := by
      intro i hi
      apply Bool.eq_false_of_not_eq_true
      intro hw
      simp [t.anyWrites_of_write i hi hw] at hshort
    have h := (locking_begin t).toLocked
    refine shape_of_stop h ⟨h.hasWrite,nofun,fun _ => ?_⟩ fun _ => hnone
    exact (List.filter_eq_nil_iff.2 fun i hi => by simp [hnone i (List.mem_range.1 hi)]).symm
  · rw [Nat.zero_add] at hlocks
    cases hl : forward tsetChunk (lockStep r) t.tsetSize 0 ⟨0,0⟩ t.begin with
    | error s =>
      rw [hl] at hlocks
      exact hfail hlocks
    | ok s =>
      rw [hl] at hlocks
      have hs : Checking t 0 { s with firstWrite := s.writeset.headD t.tsetSize % 2^16 } :=
        ⟨Locking.firstWrite hlocks,fun i hi => absurd hi (Nat.not_lt_zero i)⟩
      have hchecks := forward_ends tsetChunk (f := checkStep t.mayDuplicateItems r) (i := 0) (n := t.tsetSize)
        (fun j hj s hs => checkStep_ends (t := t) r (by omega) hs) ⟨0,0⟩ (.inl (Nat.zero_mod _)) hs
      rw [Nat.zero_add] at hchecks
      simp only
      split
      · rename_i s' hc
        rw [hc] at hchecks
        exact hfail hchecks
      · rename_i s' hc
        rw [hc] at hchecks
        exact shape_installed hchecks

end

/-- A row that is inserted and an item whose check fails. -/
def insertingTransaction : Transaction Bool where
  item i := if i = 0 then { key := false, hasWrite := true, hasInsert := true } else { key := true, hasRead := true }
  tsetSize := 2
  anyWrites := true
  anyNonopaque := true
  mayDuplicateItems := false
  size_le := by decide
  anyWrites_of_write _ _ _ := rfl

/-- The aborted insert's lock is recorded, its row is not one the transaction deletes, and it is never released. -/
theorem aborted_insert_stays_locked :
    let c := insertingTransaction.tryCommit ⟨fun _ => true,fun _ => true,fun _ => false⟩
    c.1 = false ∧ Recorded insertingTransaction c.2.log 0 ∧ (insertingTransaction.item 0).hasDelete = false ∧
      c.2.log.count (.release 0) = 0 := by
  decide +kernel

/-- Two reads of one object in a set that may hold duplicates, and a write. -/
def duplicatingTransaction : Transaction Bool where
  item i := if i = 2 then { key := false, hasWrite := true } else { key := true, hasRead := true }
  tsetSize := 3
  anyWrites := true
  anyNonopaque := true
  mayDuplicateItems := true
  size_le := by decide
  anyWrites_of_write _ _ _ := rfl

/-- The check of the second read fails, and the write is installed. -/
theorem failed_duplicate_check_installs : let c := duplicatingTransaction.tryCommit ⟨fun _ => true,fun _ => true,fun i => i == 0⟩
    c.1 = true ∧ .check 1 false ∈ c.2.log ∧ .install 2 ∈ c.2.log := by
  decide +kernel

end AlNiCo.Sto.CommitProtocol
