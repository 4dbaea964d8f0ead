import AlNiCo.Library.CommutingFold
import AlNiCo.Tpcc.Commute

/-! The order in which new-orders take from the same stock: each takes its quantity modulo 91,
so the row that is left is the same in every order. -/
namespace AlNiCo.Tpcc
open Sto Library BitVec

/-- Between 10 and 100 pieces are there. -/
def InStock (sv : stockValue.Row) : Prop :=
  let quantity : BitVec 32 := sv StockColumn.sQuantity
  10 ≤ quantity.toInt ∧ quantity.toInt ≤ 100

/-- An order line asks for 1 to 10 pieces. -/
def OrderedQty (comm : StockComm) : Prop := 1 ≤ comm.updateQty.toInt ∧ comm.updateQty.toInt ≤ 10

/-- The commutators are installed one after the other. -/
def installAll (sv : stockValue.Row) (comms : List StockComm) : stockValue.Row :=
  comms.foldl (fun sv comm => comm.operate sv) sv

/-- An order line's quantity, and whether it is supplied by a remote warehouse. -/
abbrev StockLine : Type := BitVec 64 × Bool

/-- The commutator that a new-order passes. -/
def StockLine.comm (line : StockLine) : StockComm := ⟨line.1.setWidth 32,line.2⟩

/-- The new-orders commit one after the other. -/
def commitAll (b : Build) (commute : Bool) (sv : stockValue.Row) (lines : List StockLine) : Option stockValue.Row :=
  lines.foldlM (fun sv (line : StockLine) => (orderStock line.1 line.2).run b sv commute) sv

section

private theorem toNat_of_toInt {x : BitVec 32} {lo hi : Nat} (hlo : (lo : Int) ≤ x.toInt) (hhi : x.toInt ≤ hi) :
    lo ≤ x.toNat ∧ x.toNat ≤ hi := by
  have hx := x.isLt
  rw [toInt_eq_toNat_cond] at hlo hhi
  split at hlo <;> omega

private theorem toInt_of_toNat {x : BitVec 32} {hi : Nat} (h : x.toNat ≤ hi) (hsmall : hi < 2^31) : x.toInt = x.toNat := by
  rw [toInt_eq_toNat_cond,if_pos (by omega)]

/-- Above the ten pieces that stay, the quantity goes down modulo 91. -/
theorem toNat_takeStock {quantity qty : BitVec 32} (hq : 10 ≤ quantity.toNat ∧ quantity.toNat ≤ 100)
    (hqty : 1 ≤ qty.toNat ∧ qty.toNat ≤ 10) :
    (takeStock quantity qty).toNat = 10+(quantity.toNat-10+91-qty.toNat) % 91 := by
  have hsub : (quantity-10).toNat = quantity.toNat-10 := by
    rw [toNat_sub,show (10 : BitVec 32).toNat = 10 from rfl]
    omega
  have hsle : qty.sle (quantity-10) = decide (qty.toNat ≤ quantity.toNat-10) := by
    rw [sle_eq_decide,toInt_of_toNat hqty.2 (by decide),toInt_of_toNat (hsub ▸ by omega : (quantity-10).toNat ≤ 90) (by decide),hsub]
    exact decide_eq_decide.2 Int.ofNat_le
  rw [takeStock,hsle]
  by_cases h : qty.toNat ≤ quantity.toNat-10
  · rw [decide_eq_true h,if_pos rfl,toNat_sub]
    omega
  · rw [decide_eq_false h,if_neg Bool.false_ne_true,toNat_add,toNat_sub,show (91 : BitVec 32).toNat = 91 from rfl]
    omega

theorem takeStock_comm {quantity a b} (hq : 10 ≤ quantity.toNat ∧ quantity.toNat ≤ 100)
    (ha : 1 ≤ a.toNat ∧ a.toNat ≤ 10) (hb : 1 ≤ b.toNat ∧ b.toNat ≤ 10) :
    takeStock (takeStock quantity a) b = takeStock (takeStock quantity b) a := by
  have hqa := toNat_takeStock hq ha
  have hqb := toNat_takeStock hq hb
  apply eq_of_toNat_eq
  have hab := toNat_takeStock (show 10 ≤ (takeStock quantity a).toNat ∧ (takeStock quantity a).toNat ≤ 100 by omega) hb
  have hba := toNat_takeStock (show 10 ≤ (takeStock quantity b).toNat ∧ (takeStock quantity b).toNat ≤ 100 by omega) ha
  omega

end

section
variable {sv : stockValue.Row}

/-- What a commutator does, column by column. -/
theorem operate_eq (comm : StockComm) (sv : stockValue.Row) (c : StockColumn) : comm.operate sv c = match c with
    | .sDists => sv .sDists
    | .sData => sv .sData
    | .sQuantity => takeStock (sv .sQuantity) comm.updateQty
    | .sYtd => (sv .sYtd : BitVec 32)+comm.updateQty
    | .sOrderCnt => (sv .sOrderCnt : BitVec 32)+1
    | .sRemoteCnt => (sv .sRemoteCnt : BitVec 32)+if comm.isRemote then 1 else 0 := by
  obtain ⟨qty,remote⟩ := comm
  cases remote with
  | false | true => cases c <;> simp [StockComm.operate]

theorem inStock_operate {comm : StockComm} (hsv : InStock sv) (hc : OrderedQty comm) : InStock (comm.operate sv) := by
  have hq := toNat_of_toInt hsv.1 hsv.2
  have hqty := toNat_of_toInt hc.1 hc.2
  have htaken := toNat_takeStock hq hqty
  rw [InStock,operate_eq]
  dsimp only
  rw [toInt_of_toNat (show (takeStock (sv .sQuantity) comm.updateQty).toNat ≤ 100 by omega) (by decide)]
  omega

theorem operate_comm {a b : StockComm} (hsv : InStock sv) (ha : OrderedQty a) (hb : OrderedQty b) :
    b.operate (a.operate sv) = a.operate (b.operate sv) := by
  funext c
  cases c with
  | sDists | sData | sOrderCnt => simp only [operate_eq]
  | sQuantity =>
    simp only [operate_eq]
    exact takeStock_comm (toNat_of_toInt hsv.1 hsv.2) (toNat_of_toInt ha.1 ha.2) (toNat_of_toInt hb.1 hb.2)
  | sYtd | sRemoteCnt =>
    simp only [operate_eq]
    exact add_right_comm (G := BitVec 32) _ _ _

theorem run_orderStock (b : Build) (commute : Bool) (line : StockLine) (sv : stockValue.Row) :
    (orderStock line.1 line.2).run b sv commute = some (line.comm.operate sv) := by
  obtain ⟨hagree,honce⟩ := commutes_orderStock b line.1 line.2 sv
  cases commute with
  | true => exact honce
  | false => exact hagree.symm.trans honce

theorem commitAll_eq (b : Build) (commute : Bool) (lines : List StockLine) (sv : stockValue.Row) :
    commitAll b commute sv lines = some (installAll sv (lines.map StockLine.comm)) := by
  induction lines generalizing sv with
  | nil => rfl
  | cons line lines ih =>
    rw [commitAll,List.foldlM_cons,run_orderStock]
    exact ih (line.comm.operate sv)

/-- In every order the commutators leave the same row, with 10 to 100 pieces after each of them;
so do the new-orders that pass them, in either build. -/
theorem stock_updates_commute (sv : stockValue.Row) (hsv : InStock sv) (comms : List StockComm) (hcomms : ∀ c ∈ comms, OrderedQty c)
    (comms' : List StockComm) (hp : comms.Perm comms') :
    installAll sv comms' = installAll sv comms ∧ (∀ done, done <+: comms' → InStock (installAll sv done)) ∧
      ∀ b commute lines, lines.map StockLine.comm = comms' → commitAll b commute sv lines = some (installAll sv comms) := by
  have hkeep (sv : stockValue.Row) (c : StockComm) (hsv : InStock sv) (hc : OrderedQty c) : InStock (c.operate sv) :=
    inStock_operate hsv hc
  have hcomms' (c : StockComm) (hc : c ∈ comms') : OrderedQty c := hcomms c (hp.mem_iff.mpr hc)
  have heq : installAll sv comms = installAll sv comms' :=
    CommutingFold.foldl_perm hkeep (fun _ _ _ hsv ha hb => operate_comm hsv ha hb) hp hcomms hsv
  refine ⟨heq.symm,?_,?_⟩
  · intro done hdone
    exact List.foldlRecOn done _ hsv (fun sv hsv c hc => hkeep sv c hsv (hcomms' c (hdone.subset hc)))
  · intro b commute lines hlines
    rw [commitAll_eq,hlines,heq]

end

/-- Twelve pieces are there; a line takes nine, another one five from a remote warehouse. -/
theorem stock_updates_commute_twelve :
    let sv : stockValue.Row := fun
      | .sDists => .replicate 10 (.replicate 24 0)
      | .sData => ⟨[],by decide⟩
      | .sQuantity => 12#32
      | .sYtd => 0#32
      | .sOrderCnt => 0#32
      | .sRemoteCnt => 0#32
    InStock sv ∧ installAll sv [⟨5,true⟩,⟨9,false⟩] = installAll sv [⟨9,false⟩,⟨5,true⟩] := by
  intro sv
  have hsv : InStock sv := by
    rw [InStock]
    decide
  have hcomms : ∀ c ∈ [(⟨9,false⟩ : StockComm),⟨5,true⟩], OrderedQty c := by
    intro c hc
    rcases List.mem_pair.mp hc with rfl | rfl <;> exact ⟨by decide,by decide⟩
  exact ⟨hsv,(stock_updates_commute sv hsv _ hcomms _ (.swap _ _ _)).1⟩

end AlNiCo.Tpcc
