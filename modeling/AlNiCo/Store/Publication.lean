import AlNiCo.Library.Machine
import Mathlib.Logic.Function.Basic

/-! One writer in `write_value_various_size` and any number of readers that fetch an entry with
`get_value_various_size` and validate it later (mystorage.cpp); every load, store and byte is a step. -/
namespace AlNiCo.Store.Publication
open Library Function

/-- A `MAP_entry_t`, with the bytes that `addr` points to. -/
structure Entry where
  version : BitVec 64
  serverLockId : BitVec 64
  size : Nat
  bytes : Nat → BitVec 8

structure Write where
  data : Nat → BitVec 8
  size : Nat

inductive WriterPc
  | start
  | versionLoaded (version : BitVec 64)
  | versionStored
  | unlocked
  | copying (copied : Nat)
  | done

inductive Get
  | start
  | versionLoaded (version : BitVec 64)
  | lockLoaded (version : BitVec 64)
  | flagged (version : BitVec 64) (flag : Bool)
  | copying (version : BitVec 64) (flag : Bool) (size : Nat) (copied : List (BitVec 8))
  | returned (version : BitVec 64) (flag : Bool) (copied : List (BitVec 8))

/-- The caller of the fetch does not look at its flag. -/
inductive Reader
  | fetching (call : Get)
  | validating (version : BitVec 64) (value : List (BitVec 8)) (call : Get)
  | validated (version : BitVec 64) (value : List (BitVec 8)) (ok : Bool)

def Write.step (w : Write) (e : Entry) : WriterPc → Option (Entry × WriterPc)
  | .start => some (e,.versionLoaded e.version)
  | .versionLoaded version => some ({ e with version := version+1 },.versionStored)
  | .versionStored => some ({ e with serverLockId := -1 },.unlocked)
  | .unlocked => some (e,.copying 0)
  | .copying n =>
    if n < w.size then some ({ e with bytes := update e.bytes n (w.data n) },.copying (n+1)) else some (e,.done)
  | .done => none

/-- Without an address nothing is copied. -/
def Get.step (e : Entry) (id : BitVec 16) (addr : Bool) : Get → Option Get
  | .start => some (.versionLoaded e.version)
  | .versionLoaded version => some (if e.serverLockId ≠ -1 then .lockLoaded version else .flagged version false)
  | .lockLoaded version => some (.flagged version (e.serverLockId ≠ id.setWidth 64))
  | .flagged version flag => some (if addr then .copying version flag e.size [] else .returned version flag [])
  | .copying version flag size copied =>
    some (if copied.length < size then .copying version flag size (copied ++ [e.bytes copied.length])
      else .returned version flag copied)
  | .returned .. => none

def Reader.step (e : Entry) (id : BitVec 16) : Reader → Option Reader
  | .fetching (.returned version _ copied) => some (.validating version copied .start)
  | .fetching call => (call.step e id true).map .fetching
  | .validating version value (.returned readVersion flag _) =>
    some (.validated version value (!flag && readVersion == version))
  | .validating version value call => (call.step e id false).map (.validating version value)
  | .validated .. => none

variable {R : Type} [DecidableEq R]

structure State (R : Type) where
  entry : Entry
  writer : WriterPc
  reader : R → Reader

inductive Action (R : Type)
  | write
  | read (r : R)

def State.next (w : Write) (id : R → BitVec 16) (s : State R) : Action R → Option (State R)
  | .write => (w.step s.entry s.writer).map (fun (entry,writer) => { s with entry := entry, writer := writer })
  | .read r => ((s.reader r).step s.entry (id r)).map (fun reader => { s with reader := update s.reader r reader })

/-- The entry before the write, locked for the writer. -/
def machine (e : Entry) (w : Write) (id : R → BitVec 16) : Machine (State R) (Action R) :=
  .ofNext ⟨e,.start,fun _ => .fetching .start⟩ (State.next w id)

/-- The version is stored and the last byte is not yet copied. -/
def WriterPc.publishing : WriterPc → Bool
  | .versionStored | .unlocked | .copying _ => true
  | _ => false

/-- Reader `r` does not begin its fetch while the write is being published. -/
def Apart (r : R) (s : State R) (a : Action R) : Prop :=
  a = .read r → s.reader r = .fetching .start → s.writer.publishing = false

section
variable (e : Entry) (w : Write)

def written (n i : Nat) : BitVec 8 := if i < n then w.data i else e.bytes i

/-- The value that belongs to the version before the write, or after it. -/
def Belongs (version : BitVec 64) (value : List (BitVec 8)) : Prop :=
  version = e.version ∧ value = (List.range e.size).map e.bytes ∨
  version = e.version+1 ∧ value = (List.range e.size).map (written e w w.size)

/-- What the writer has done to the entry; it is new when the new version is stored. -/
def Writing (s : Entry) : WriterPc → Prop
  | .start => s.version = e.version ∧ s.bytes = e.bytes
  | .versionLoaded version => version = e.version ∧ s.version = e.version ∧ s.bytes = e.bytes
  | .versionStored | .unlocked => s.version = e.version+1 ∧ s.bytes = e.bytes
  | .copying n => s.version = e.version+1 ∧ s.bytes = written e w n ∧ n ≤ w.size
  | .done => s.version = e.version+1 ∧ s.bytes = written e w w.size

/-- Bytes that were fetched under a version: the old ones if that version is still there, the new
ones if it is the new one. -/
def Fetched (s : Entry) (writer : WriterPc) (version : BitVec 64) (copied : List (BitVec 8)) : Prop :=
  version = e.version ∧ (s.version = e.version → copied = (List.range copied.length).map e.bytes) ∨
  version = e.version+1 ∧ s.version = e.version+1 ∧ writer.publishing = false ∧
    copied = (List.range copied.length).map (written e w w.size)

def GetOk (s : Entry) (writer : WriterPc) : Get → Prop
  | .start => True
  | .versionLoaded version | .lockLoaded version | .flagged version _ => Fetched e w s writer version []
  | .copying version _ size copied => Fetched e w s writer version copied ∧ size = e.size ∧ copied.length ≤ e.size
  | .returned version _ copied => Fetched e w s writer version copied ∧ copied.length = e.size

def ReaderOk (s : Entry) (writer : WriterPc) : Reader → Prop
  | .fetching call => GetOk e w s writer call
  | .validating version value .start => Fetched e w s writer version value ∧ value.length = e.size
  | .validating version value (.versionLoaded v) | .validating version value (.lockLoaded v)
  | .validating version value (.flagged v _) | .validating version value (.copying v _ _ _)
  | .validating version value (.returned v _ _) => v = version → Belongs e w version value
  | .validated version value ok => ok = true → Belongs e w version value

end

variable {e s : Entry} {w : Write} {writer : WriterPc} {version : BitVec 64} {copied : List (BitVec 8)}

theorem next_ne (v : BitVec 64) : v+1 ≠ v := by
  intro h
  have hone := BitVec.add_right_eq_self.mp h
  exact absurd hone (by decide)

theorem Fetched.append (h : Fetched e w s writer version copied) (hw : Writing e w s writer) :
    Fetched e w s writer version (copied ++ [s.bytes copied.length]) := by
  have hsnoc (f : Nat → BitVec 8) (hc : copied = (List.range copied.length).map f) (hb : s.bytes = f) :
      copied ++ [s.bytes copied.length] = (List.range (copied ++ [s.bytes copied.length]).length).map f := by
    rw [List.length_append,List.length_singleton,List.range_succ,List.map_append,← hc,hb]
    rfl
  rcases h with ⟨hv,hold⟩ | ⟨hv,hs,hpub,hnew⟩
  · refine .inl ⟨hv,fun hs => hsnoc _ (hold hs) ?_⟩
    cases writer with
    | start => exact hw.2
    | versionLoaded v => exact hw.2.2
    | versionStored | unlocked | copying | done => exact absurd (hw.1.symm.trans hs) (next_ne _)
  · refine .inr ⟨hv,hs,hpub,hsnoc _ hnew ?_⟩
    cases writer with
    | start => exact absurd (hs.symm.trans hw.1) (next_ne _)
    | versionLoaded v => exact absurd (hs.symm.trans hw.2.1) (next_ne _)
    | versionStored | unlocked | copying => cases hpub
    | done => exact hw.2

theorem Fetched.belongs (h : Fetched e w s writer version copied) (hlen : copied.length = e.size) (hs : s.version = version) :
    Belongs e w version copied := by
  rcases h with ⟨hv,hold⟩ | ⟨hv,-,-,hnew⟩
  · exact .inl ⟨hv,hlen ▸ hold (hs.trans hv)⟩
  · exact .inr ⟨hv,hlen ▸ hnew⟩

/-- The version is the old one before the writer stores it, and the new one after. -/
theorem Writing.version_cases (h : Writing e w s writer) :
    s.version = e.version ∧ writer.publishing = false ∨ s.version = e.version+1 := by
  cases writer with
  | start => exact .inl ⟨h.1,rfl⟩
  | versionLoaded v => exact .inl ⟨h.2.1,rfl⟩
  | versionStored | unlocked | copying | done => exact .inr h.1

theorem Writing.fetched (h : Writing e w s writer) (hpub : writer.publishing = false) : Fetched e w s writer s.version [] := by
  rcases h.version_cases with ⟨hs,-⟩ | hs
  · exact .inl ⟨hs,fun _ => rfl⟩
  · exact .inr ⟨hs,hs,hpub,rfl⟩

variable {s' : Entry} {writer' : WriterPc}

theorem update_written (e : Entry) (w : Write) (n : Nat) : update (written e w n) n (w.data n) = written e w (n+1) := by
  funext i
  by_cases hi : i = n
  · rw [hi,update_self,written,if_pos (Nat.lt_succ_self n)]
  · have hiff : i < n+1 ↔ i < n := by omega
    rw [update_of_ne hi,written,written]
    simp only [hiff]

/-- A step of the writer; the version does not go back. -/
theorem Writing.step (h : Writing e w s writer) (hstep : w.step s writer = some (s',writer')) :
    Writing e w s' writer' ∧ s'.size = s.size ∧ (s'.version = e.version → s.version = e.version) := by
  cases writer with
  | start =>
    cases hstep
    exact ⟨⟨h.1,h⟩,rfl,fun hs => hs⟩
  | versionLoaded v =>
    cases hstep
    exact ⟨⟨congrArg (·+1) h.1,h.2.2⟩,rfl,fun _ => h.2.1⟩
  | versionStored =>
    cases hstep
    exact ⟨h,rfl,fun hs => hs⟩
  | unlocked =>
    have hnone : e.bytes = written e w 0 := funext (fun i => (if_neg (Nat.not_lt_zero i)).symm)
    cases hstep
    exact ⟨⟨h.1,h.2.trans hnone,Nat.zero_le _⟩,rfl,fun hs => hs⟩
  | copying n =>
    obtain ⟨hv,hb,hn⟩ := h
    rw [Write.step] at hstep
    split at hstep
    · next hlt =>
      cases hstep
      exact ⟨⟨hv,hb ▸ update_written e w n,hlt⟩,rfl,fun hs => hs⟩
    · next hge =>
      cases hstep
      obtain rfl : n = w.size := Nat.le_antisymm hn (Nat.le_of_not_lt hge)
      exact ⟨⟨hv,hb⟩,rfl,fun hs => hs⟩
  | done => cases hstep

theorem Fetched.write (h : Fetched e w s writer version copied) (hw : Writing e w s writer)
    (hstep : w.step s writer = some (s',writer')) : Fetched e w s' writer' version copied := by
  rcases h with ⟨hv,hold⟩ | ⟨hv,hs,hpub,hnew⟩
  · exact .inl ⟨hv,fun hs' => hold ((hw.step hstep).2.2 hs')⟩
  · cases writer with
    | start => exact absurd (hs.symm.trans hw.1) (next_ne _)
    | versionLoaded v => exact absurd (hs.symm.trans hw.2.1) (next_ne _)
    | versionStored | unlocked | copying => cases hpub
    | done => cases hstep

theorem ReaderOk.write {reader} (h : ReaderOk e w s writer reader)
    (hkeep : ∀ version copied, Fetched e w s writer version copied → Fetched e w s' writer' version copied) :
    ReaderOk e w s' writer' reader := by
  cases reader with
  | fetching call =>
    cases call with
    | start => trivial
    | versionLoaded | lockLoaded | flagged => exact hkeep _ _ h
    | copying | returned => exact ⟨hkeep _ _ h.1,h.2⟩
  | validating version value call =>
    cases call with
    | start => exact ⟨hkeep _ _ h.1,h.2⟩
    | _ => exact h
  | validated => exact h

theorem ReaderOk.step {id reader reader'} (h : ReaderOk e w s writer reader) (hw : Writing e w s writer)
    (hsize : s.size = e.size) (hstart : reader = .fetching .start → writer.publishing = false)
    (hstep : reader.step s id = some reader') : ReaderOk e w s writer reader' := by
  cases reader with
  | fetching call =>
    cases call with
    | start =>
      cases hstep
      exact hw.fetched (hstart rfl)
    | versionLoaded v =>
      cases hstep
      split
      · exact h
      · exact h
    | lockLoaded | returned =>
      cases hstep
      exact h
    | flagged v flag =>
      cases hstep
      exact ⟨h,hsize,Nat.zero_le _⟩
    | copying v flag size copied =>
      obtain ⟨hfetched,rfl,hle⟩ := h
      cases hstep
      split
      · next hlt => exact ⟨hfetched.append hw,rfl,by rw [List.length_append]; exact hlt⟩
      · next hge => exact ⟨hfetched,Nat.le_antisymm hle (Nat.le_of_not_lt hge)⟩
  | validating version value call =>
    cases call with
    | start =>
      cases hstep
      exact fun hv => h.1.belongs h.2 hv
    | versionLoaded | copying =>
      cases hstep
      split
      · exact h
      · exact h
    | lockLoaded | flagged =>
      cases hstep
      exact h
    | returned v flag copied =>
      cases hstep
      intro hok
      exact h (eq_of_beq (Bool.and_eq_true_iff.mp hok).2)
  | validated => cases hstep

/-- A reader whose validation succeeds has the value of the version it validated, whole, if its
fetch did not begin between the store of the new version and the copy of the last byte. -/
theorem validated_value_belongs (e : Entry) (w : Write) (id : R → BitVec 16) (r : R) (s : State R)
    (h : (machine e w id).Reached (Apart r) s) {version : BitVec 64} {value : List (BitVec 8)}
    (hr : s.reader r = .validated version value true) : Belongs e w version value := by
  have hinv : Writing e w s.entry s.writer ∧ s.entry.size = e.size ∧ ReaderOk e w s.entry s.writer (s.reader r) := by
    refine h.ofNext_invariant (I := fun s : State R => Writing e w s.entry s.writer ∧ s.entry.size = e.size ∧
      ReaderOk e w s.entry s.writer (s.reader r)) ⟨⟨rfl,rfl⟩,rfl,trivial⟩ (fun s a s' hI hapart hnext => ?_)
    obtain ⟨hw,hsize,hreader⟩ := hI
    cases a with
    | write =>
      obtain ⟨⟨entry,writer⟩,hstep,rfl⟩ := Option.map_eq_some_iff.mp hnext
      obtain ⟨hw',hkept,-⟩ := hw.step hstep
      exact ⟨hw',hkept.trans hsize,hreader.write (fun _ _ hf => hf.write hw hstep)⟩
    | read u =>
      obtain ⟨reader,hstep,rfl⟩ := Option.map_eq_some_iff.mp hnext
      refine ⟨hw,hsize,?_⟩
      by_cases hu : u = r
      · subst hu
        dsimp only
        rw [update_self]
        exact hreader.step hw hsize (hapart rfl) hstep
      · dsimp only
        rw [update_of_ne (Ne.symm hu)]
        exact hreader
  have hok := hinv.2.2
  rw [hr] at hok
  exact hok rfl

section

def oldEntry : Entry := ⟨0,3,2,fun i => if i = 0 then 1 else 2⟩

def newBytes : Write := ⟨fun i => if i = 0 then 3 else 4,2⟩

def twoReaders : Machine (State Bool) (Action Bool) := machine oldEntry newBytes (fun _ => 0)

def reads (r : Bool) (n : Nat) : List (Action Bool) := List.replicate n (.read r)

def writes (n : Nat) : List (Action Bool) := List.replicate n .write

/-- One reader copies its first byte before the write and its second one after it, and is
refused; the other one begins after the write. -/
def overlapping : List (Action Bool) := reads false 5 ++ writes 7 ++ reads false 7 ++ reads true 11

theorem validated_value_belongs_overlapping :
    ∃ s, (∀ r, twoReaders.Reached (Apart r) s) ∧ s.reader false = .validated 0 [1,4] false ∧
      s.reader true = .validated 1 [3,4] true ∧ Belongs oldEntry newBytes 1 [3,4] := by
  have hreached (r : Bool) : twoReaders.Reached (Apart r) (twoReaders.play twoReaders.start overlapping) :=
    Machine.Reached.start.playWhen
      (p := fun s a => match a with | .write => true | .read u => !(s.reader u matches .fetching .start) || !s.writer.publishing)
      (fun s a h ha hstart => by subst ha; simpa [hstart] using h) overlapping (by decide +kernel)
  exact ⟨_,hreached,rfl,rfl,validated_value_belongs oldEntry newBytes (fun _ => 0) true _ (hreached true) rfl⟩

/-- The fetch comes after the unlock and before the copy: it has the previous value under the new
version, and is validated. -/
theorem validates_old_value_as_new :
    let s := twoReaders.play twoReaders.start (writes 3 ++ reads true 11)
    twoReaders.Reachable s ∧ s.reader true = .validated 1 [1,2] true ∧ ¬ Belongs oldEntry newBytes 1 [1,2] := by
  refine ⟨.play .start _ (by decide +kernel),rfl,?_⟩
  rintro (⟨hv,-⟩ | ⟨-,hvalue⟩)
  · exact absurd hv (by decide)
  · exact absurd hvalue (by decide)

end

end AlNiCo.Store.Publication
