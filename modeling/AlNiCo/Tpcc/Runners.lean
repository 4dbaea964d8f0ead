import Mathlib

/-! The threads that `run_benchmark` starts: which warehouse each of them is given and
which delivery queues it then consumes, in every scheduling build. -/
namespace AlNiCo.Tpcc.Runners

/-- `CPUBASED`: not defined, or 1, 2, 3 (with `STRIFE`) and 4. -/
inductive Build
  | nic
  | colocated
  | central
  | strife
  | static
  deriving DecidableEq

/-- A started `tpcc_runner_thread`. -/
structure Runner where
  runnerId : Nat
  wOwn : Nat
  deriving DecidableEq

section
variable (b : Build) (maxThread numRunners nwh : Nat)

/-- The warehouse handed to thread `i`; 0 is none. -/
def wOwn (i : Nat) : Nat :=
  match b with
  | .nic | .colocated | .central => if i < maxThread then 0 else i-maxThread+1
  | .strife | .static => if i < numRunners then (if i < nwh then i+1 else 0) else 0

/-- The loop of `run_benchmark`. -/
def spawn : List Runner := (List.range (numRunners+2)).map (fun i => ⟨i,wOwn b maxThread numRunners nwh i⟩)

theorem mem_spawn {i own} : ⟨i,own⟩ ∈ spawn b maxThread numRunners nwh ↔ i < numRunners+2 ∧ own = wOwn b maxThread numRunners nwh i := by
  simp [spawn,eq_comm]

end

/-- The array a thread keeps its last delivered orders of a warehouse in. -/
inductive Record
  | lastDelivered
  | lastDeliveredMulti (i : Nat)
  deriving DecidableEq

/-- `last_delivered_multi` has ten entries. -/
def Record.Valid : Record → Prop
  | .lastDelivered => True
  | .lastDeliveredMulti i => i < 10

/-- The loop of `tpcc_runner_thread` over every other warehouse. -/
def deliverLoop (nwh oWId : Nat) : List (Nat × Record) :=
  if oWId ≤ nwh then (oWId,.lastDeliveredMulti ((oWId-1)/2)) :: deliverLoop nwh (oWId+2) else []
  termination_by nwh+1-oWId

/-- The delivery queues that a thread consumes, each with the record it uses there.
`static_hack` and `tpcc_runner_thread_strife_hack` consume one queue only. -/
def consumed (b : Build) (nwh : Nat) (r : Runner) : List (Nat × Record) :=
  if r.wOwn = 0 then [] else
    match b with
    | .nic => deliverLoop nwh r.wOwn
    | .colocated | .central | .strife | .static => [(r.wOwn,.lastDelivered)]

theorem mem_deliverLoop {nwh oWId w x} : (w,x) ∈ deliverLoop nwh oWId ↔
    oWId ≤ w ∧ w ≤ nwh ∧ w % 2 = oWId % 2 ∧ x = .lastDeliveredMulti ((w-1)/2) := by
  fun_induction deliverLoop nwh oWId with
  | case1 oWId h ih =>
    rw [List.mem_cons,ih,Prod.mk.injEq]
    constructor
    · rintro (⟨rfl,rfl⟩ | ⟨hle,hw,hodd,rfl⟩)
      · exact ⟨le_rfl,h,rfl,rfl⟩
      · exact ⟨by omega,hw,by omega,rfl⟩
    · rintro ⟨hle,hw,hodd,rfl⟩
      obtain rfl | hne := eq_or_ne w oWId
      · exact .inl ⟨rfl,rfl⟩
      · exact .inr ⟨by omega,hw,by omega,rfl⟩
  | case2 oWId h =>
    simp only [List.not_mem_nil,false_iff]
    rintro ⟨hle,hw,-⟩
    omega

theorem mem_consumed_nic {nwh i own w x} : (w,x) ∈ consumed .nic nwh ⟨i,own⟩ ↔
    own ≠ 0 ∧ own ≤ w ∧ w ≤ nwh ∧ w % 2 = own % 2 ∧ x = .lastDeliveredMulti ((w-1)/2) := by
  by_cases h : own = 0
  · simp [consumed,h]
  · simp [consumed,h,mem_deliverLoop]

theorem mem_consumed_single {b} (hb : b ≠ .nic) {nwh i own w x} :
    (w,x) ∈ consumed b nwh ⟨i,own⟩ ↔ own ≠ 0 ∧ w = own ∧ x = .lastDelivered := by
  cases b with
  | nic => exact absurd rfl hb
  | colocated | central | strife | static =>
    by_cases h : own = 0
    · simp [consumed,h]
    · simp [consumed,h]

/-- The queue of warehouse `w` has one consumer, whose record of `w` is its record of
no other warehouse. -/
def Owned (b : Build) (nwh : Nat) (threads : List Runner) (w : Nat) : Prop :=
  ∃ r ∈ threads, ∃ x, (w,x) ∈ consumed b nwh r ∧ x.Valid ∧
    (∀ r' ∈ threads, ∀ x', (w,x') ∈ consumed b nwh r' → r' = r ∧ x' = x) ∧
    ∀ w', (w',x) ∈ consumed b nwh r → w' = w

section
variable {b : Build} {nwh w : Nat}

/-- With the NIC the two extra threads share the warehouses by parity. -/
theorem owned_nic (hnwh : nwh ≤ 20) (hw : 1 ≤ w) (hle : w ≤ nwh) : Owned .nic nwh (spawn .nic 20 20 nwh) w := by
  have hown (i : Nat) : wOwn .nic 20 20 nwh i = if i < 20 then 0 else i-20+1 := rfl
  refine ⟨⟨20+(w+1) % 2,(w+1) % 2+1⟩,?_,.lastDeliveredMulti ((w-1)/2),?_,?_,?_,?_⟩
  · rw [mem_spawn,hown,if_neg (by omega)]
    omega
  · exact mem_consumed_nic.mpr ⟨by omega,by omega,hle,by omega,rfl⟩
  · change (w-1)/2 < 10
    omega
  · rintro ⟨i,own⟩ hr x hx
    rw [mem_spawn,hown] at hr
    obtain ⟨hne,hge,-,hodd,rfl⟩ := mem_consumed_nic.mp hx
    refine ⟨?_,rfl⟩
    rw [Runner.mk.injEq]
    split at hr <;> omega
  · intro w' hw'
    obtain ⟨-,hge,-,hodd,hx⟩ := mem_consumed_nic.mp hw'
    rw [Record.lastDeliveredMulti.injEq] at hx
    omega

/-- Where a thread consumes only the queue it was given, a queue has one consumer as soon
as one thread was given it. -/
theorem owned_iff_given (hb : b ≠ .nic) (hw : 1 ≤ w) : Owned b nwh (spawn b 20 20 nwh) w ↔
      ∃ i < 22, wOwn b 20 20 nwh i = w ∧ ∀ j < 22, wOwn b 20 20 nwh j = w → j = i := by
  constructor
  · rintro ⟨⟨i,own⟩,hr,x,hx,-,hall,-⟩
    obtain ⟨hi,rfl⟩ := (mem_spawn ..).mp hr
    obtain ⟨hne,rfl,rfl⟩ := (mem_consumed_single hb).mp hx
    refine ⟨i,hi,rfl,fun j hj hjw => ?_⟩
    have hj := hall ⟨j,_⟩ ((mem_spawn ..).mpr ⟨hj,hjw.symm⟩) .lastDelivered ((mem_consumed_single hb).mpr ⟨hne,rfl,rfl⟩)
    exact congrArg Runner.runnerId hj.1
  · rintro ⟨i,hi,hgiven,hall⟩
    refine ⟨⟨i,w⟩,(mem_spawn ..).mpr ⟨hi,hgiven.symm⟩,.lastDelivered,(mem_consumed_single hb).mpr ⟨by omega,rfl,rfl⟩,trivial,?_,?_⟩
    · rintro ⟨j,own⟩ hr x hx
      obtain ⟨hj,hown⟩ := (mem_spawn ..).mp hr
      obtain ⟨-,rfl,rfl⟩ := (mem_consumed_single hb).mp hx
      obtain rfl := hall j hj hown.symm
      exact ⟨rfl,rfl⟩
    · intro w' hw'
      exact ((mem_consumed_single hb).mp hw').2.1

/-- In the builds of `static_hack` with two extra threads these own warehouses 1 and 2. -/
theorem owned_extra (hb : b = .colocated ∨ b = .central) (hw : 1 ≤ w) : Owned b nwh (spawn b 20 20 nwh) w ↔ w ≤ 2 := by
  have hown (i : Nat) : wOwn b 20 20 nwh i = if i < 20 then 0 else i-20+1 := by
    obtain rfl | rfl := hb <;> rfl
  rw [owned_iff_given (by rintro rfl; simp at hb) hw]
  simp only [hown]
  constructor
  · rintro ⟨i,hi,hiw,-⟩
    split at hiw <;> omega
  · intro hle
    refine ⟨w+19,by omega,by rw [if_neg (by omega)]; omega,fun j hj hjw => ?_⟩
    split at hjw <;> omega

/-- In the Strife and static builds thread `i` owns warehouse `i + 1`. -/
theorem owned_runner (hb : b = .strife ∨ b = .static) (hnwh : nwh ≤ 20) (hw : 1 ≤ w) (hle : w ≤ nwh) :
    Owned b nwh (spawn b 20 20 nwh) w := by
  have hown (i : Nat) : wOwn b 20 20 nwh i = if i < 20 then (if i < nwh then i+1 else 0) else 0 := by
    obtain rfl | rfl := hb <;> rfl
  rw [owned_iff_given (by rintro rfl; simp at hb) hw]
  simp only [hown]
  refine ⟨w-1,by omega,by rw [if_pos (by omega),if_pos (by omega)]; omega,fun j hj hjw => ?_⟩
  split at hjw
  · split at hjw <;> omega
  · omega

end

/-- Every delivery queue has its one consumer, except in the co-located and central builds
with more than two warehouses. -/
theorem delivery_ownership_iff (b : Build) (nwh : Nat) (hpos : 1 ≤ nwh) (hle : nwh ≤ 20) :
    (∀ w, 1 ≤ w → w ≤ nwh → Owned b nwh (spawn b 20 20 nwh) w) ↔
      (b ≠ .colocated ∧ b ≠ .central) ∨ nwh ≤ 2 := by
  cases b with
  | nic =>
    exact iff_of_true (fun w hw hwn => owned_nic hle hw hwn) (.inl ⟨by decide,by decide⟩)
  | strife | static =>
    exact iff_of_true (fun w hw hwn => owned_runner (by decide) hle hw hwn) (.inl ⟨by decide,by decide⟩)
  | colocated | central =>
    simp only [ne_eq,not_true_eq_false,reduceCtorEq,not_false_eq_true,and_true,and_false,false_or]
    constructor
    · intro h
      exact (owned_extra (by decide) hpos).mp (h nwh hpos le_rfl)
    · intro h w hw hwn
      exact (owned_extra (by decide) hw).mpr (hwn.trans h)

theorem delivery_ownership_nic : Owned .nic 20 (spawn .nic 20 20 20) 1 ∧ Owned .nic 20 (spawn .nic 20 20 20) 20 :=
  have howned := (delivery_ownership_iff .nic 20 (by decide) (by decide)).mpr (by decide)
  ⟨howned 1 (by decide) (by decide),howned 20 (by decide) (by decide)⟩

/-- With three warehouses nobody consumes the third queue of the central build. -/
theorem third_queue_unconsumed :
    ¬∃ r ∈ spawn .central 20 20 3, ∃ x, (3,x) ∈ consumed .central 3 r := by
  rintro ⟨⟨i,own⟩,hr,x,hx⟩
  obtain ⟨hi,rfl⟩ := (mem_spawn ..).mp hr
  have hown := ((mem_consumed_single (by decide)).mp hx).2.1
  rw [wOwn] at hown
  split at hown <;> omega

end AlNiCo.Tpcc.Runners
