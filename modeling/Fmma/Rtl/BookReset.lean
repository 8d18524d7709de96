import Fmma.Rtl.MmTop

/-!
# The books after a reset

A reset empties the bitmaps in one clock and the RAM one word in each clock after it. A read of the
book does not wait for that: it returns the word as its bank finds it.
-/

namespace Fmma

namespace BookBank

variable {wselW qtyW : ℕ} {b : BookBank wselW qtyW} {i : BookIn wselW qtyW}
  {inp : ℕ → BookIn wselW qtyW}

/-! ### The RAM -/

/-- The RAM while it is cleared. -/
theorem levelQty_clearing {n : ℕ} (hn : n ≤ 2 ^ (wselW + 5 + 1)) (a : LevelAddr wselW) :
    (afterReset b i inp n).levelQty a =
      if a.toNat < n then 0 else (edge true b i).levelQty a := by
  induction n with
  | zero => rw [if_neg (Nat.not_lt_zero _)]; rfl
  | succ n ih =>
    obtain ⟨hbusy, haddr⟩ := clearing b i inp (Nat.lt_of_succ_le hn)
    have hedge : (afterReset b i inp (n + 1)).levelQty =
        Function.update (afterReset b i inp n).levelQty (BitVec.ofNat _ n) 0 := by
      rw [← haddr]
      exact if_pos hbusy
    have hnat : (BitVec.ofNat (wselW + 5 + 1) n).toNat = n := by
      rw [BitVec.toNat_ofNat, Nat.mod_eq_of_lt (Nat.lt_of_succ_le hn)]
    rw [hedge]
    by_cases ha : a = BitVec.ofNat _ n
    · rw [ha, Function.update_self, hnat, if_pos (Nat.lt_succ_self n)]
    · have hne : a.toNat ≠ n := fun h => ha (BitVec.eq_of_toNat_eq (h.trans hnat.symm))
      rw [Function.update_of_ne ha, ih (Nat.le_of_succ_le hn)]
      by_cases hlt : a.toNat < n
      · rw [if_pos hlt, if_pos (Nat.lt_succ_of_lt hlt)]
      · rw [if_neg hlt, if_neg (by omega)]

/-- **The RAM before the first update**: the clear has passed a word or it has not. -/
theorem settled_untouched {n : ℕ} (hnone : ∀ m < n, accepts b i inp m = false)
    (a : LevelAddr wselW) : (afterReset b i inp n).settled a =
      if a.toNat < n then 0 else (edge true b i).levelQty a := by
  have hs1 : (afterReset b i inp n).s1Valid = false := by
    cases n with
    | zero => rfl
    | succ n => exact hnone n (Nat.lt_succ_self n)
  rw [settled, hs1, if_neg Bool.false_ne_true]
  by_cases hn : n ≤ 2 ^ (wselW + 5 + 1)
  · exact levelQty_clearing hn a
  · have hready : (afterReset b i inp n).ready = true :=
      (ready_iff b i inp n).mpr (Nat.le_of_not_le hn)
    have hnil : accepted b i inp n = [] := accepted_eq_nil hnone
    have hquantity := levelQty_drained hready hs1 a.msb (a.setWidth _)
    have haddr : BitVec.cons a.msb (a.setWidth (wselW + 5)) = a := cons_eq_iff.mpr ⟨rfl, rfl⟩
    have hempty : quantity ([] : List (BookIn wselW qtyW)) a.msb (a.setWidth _) = 0 := rfl
    have hzero : ((afterReset b i inp n).levelQty a).toNat = 0 := by
      rw [hnil, haddr, hempty] at hquantity
      exact_mod_cast hquantity
    rw [if_pos (a.isLt.trans_le (Nat.le_of_not_le hn))]
    exact BitVec.eq_of_toNat_eq (hzero.trans BitVec.toNat_zero.symm)

end BookBank

namespace MmTop

variable {p : MmParams} {t : MmTop p} {i : MmIn p} {inp : ℕ → MmIn p}

/-! ### A read of the book -/

/-- The slave waits for a bank that has not answered it yet. -/
structure Asking (t : MmTop p) (d : AxiTarget p.toAxiParams) : Prop where
  rdBusy : t.ctrl.rdBusy = true
  rK : t.ctrl.rK = .book
  hostRdReq : t.ctrl.hostRdReq = true
  hostRdSym : t.ctrl.hostRdSym = d.sym
  hostRdAddr : t.ctrl.hostRdAddr = d.idx
  rvalid : t.ctrl.rvalid = false
  unacked : ∀ s, (t.bank s).h1Valid = false

/-- The bank answers. -/
structure Acked (t : MmTop p) (d : AxiTarget p.toAxiParams) (q : BitVec p.qtyW) : Prop where
  rdBusy : t.ctrl.rdBusy = true
  rK : t.ctrl.rK = .book
  hostRdSym : t.ctrl.hostRdSym = d.sym
  rvalid : t.ctrl.rvalid = false
  acked : (t.bank d.sym).h1Valid = true
  data : (t.bank d.sym).hostRdData = q

/-- The response to a read. -/
structure Responds (t : MmTop p) (q : BitVec p.qtyW) : Prop where
  rvalid : t.ctrl.rvalid = true
  rresp : t.ctrl.rresp = okay
  rdata : t.ctrl.rdata = q.setWidth 32

/-- Only a read of the book asks the banks. -/
theorem asking_afterReset (n : ℕ) (hreq : (t.afterReset i inp n).ctrl.hostRdReq = true) :
    (t.afterReset i inp n).ctrl.rdBusy = true ∧ (t.afterReset i inp n).ctrl.rK = .book := by
  induction n with
  | zero => cases hreq
  | succ n ih =>
    have hedge : (t.afterReset i inp (n + 1)).ctrl = (t.afterReset i inp n).ctrl.edge false
        ((t.afterReset i inp n).axiIn (inp n)) := rfl
    rw [hedge] at hreq ⊢
    rcases AxiCtrl.read_cases (t.afterReset i inp n).ctrl
      ((t.afterReset i inp n).axiIn (inp n)) with h | h | h
    · by_cases hbook : (p.decode (inp n).araddr).kind = .book
      · exact ⟨h.rdBusy, (congrArg AxiTarget.kind h.target).trans hbook⟩
      · rw [h.noRequest hbook] at hreq
        have hfree := h.fires
        rw [AxiCtrl.arFire, AxiCtrl.arready, (ih hreq).1] at hfree
        simp only [Bool.not_true, Bool.false_and, Bool.and_false, Bool.false_eq_true] at hfree
    · by_cases hbook : (t.afterReset i inp n).ctrl.rK = .book
      · rw [h.request hbook] at hreq
        cases hreq
      · rw [h.noRequest hbook] at hreq
        exact absurd (ih hreq).2 hbook
    · rw [h.hostRdReq] at hreq
      rw [h.rdBusy, h.rK]
      exact ih hreq

/-- Without a request the read channel rests. -/
theorem idle_afterReset (n : ℕ) (hquiet : ∀ m < n, (inp m).arvalid = false) :
    (t.afterReset i inp n).ctrl.rdBusy = false ∧ (t.afterReset i inp n).ctrl.rvalid = false := by
  induction n with
  | zero => exact ⟨rfl, rfl⟩
  | succ n ih =>
    obtain ⟨hbusy, hvalid⟩ := ih fun m hm => hquiet m (Nat.lt_succ_of_lt hm)
    have hedge : (t.afterReset i inp (n + 1)).ctrl = (t.afterReset i inp n).ctrl.edge false
        ((t.afterReset i inp n).axiIn (inp n)) := rfl
    rw [hedge]
    rcases AxiCtrl.read_cases (t.afterReset i inp n).ctrl
      ((t.afterReset i inp n).axiIn (inp n)) with h | h | h
    · have hfires : (inp n).arvalid = true := (Bool.and_eq_true_iff.mp h.fires).1
      exact absurd ((hquiet n (Nat.lt_succ_self n)).symm.trans hfires) Bool.false_ne_true
    · exact absurd (hbusy.symm.trans h.busy) Bool.false_ne_true
    · rw [h.rdBusy, h.rvalid, hvalid]
      exact ⟨hbusy, rfl⟩

/-- No bank acknowledges what has not been asked. -/
theorem h1Valid_edge (s : BitVec p.symW) : ((t.edge false i).bank s).h1Valid =
    (t.ctrl.hostRdReq && t.ctrl.hostRdSym == s && !(t.bank s).updGo (t.bankIn i s) &&
      !(t.bank s).h1Valid) := rfl

/-- A read of the book is accepted. -/
theorem asking_of_arFire {n : ℕ}
    (hfire : (t.afterReset i inp n).ctrl.arFire ((t.afterReset i inp n).axiIn (inp n)) = true)
    (hbook : (p.decode (inp n).araddr).kind = .book) :
    Asking (t.afterReset i inp (n + 1)) (p.decode (inp n).araddr) := by
  have hfree : (t.afterReset i inp n).ctrl.rdBusy = false ∧
      (t.afterReset i inp n).ctrl.rvalid = false := by
    have hready := (Bool.and_eq_true_iff.mp hfire).2
    rw [AxiCtrl.arready, Bool.and_eq_true, Bool.not_eq_true', Bool.not_eq_true'] at hready
    exact hready
  have hnoreq : (t.afterReset i inp n).ctrl.hostRdReq = false := by
    rw [← Bool.not_eq_true]
    intro hreq
    exact Bool.false_ne_true (hfree.1.symm.trans (asking_afterReset n hreq).1)
  have hstarts : AxiCtrl.ReadStarts (t.afterReset i inp n).ctrl
      ((t.afterReset i inp n).axiIn (inp n)) (t.afterReset i inp (n + 1)).ctrl := by
    rcases AxiCtrl.read_cases (t.afterReset i inp n).ctrl
      ((t.afterReset i inp n).axiIn (inp n)) with h | h | h
    · exact h
    · exact absurd (h.fires.symm.trans hfire) Bool.false_ne_true
    · exact absurd (h.fires.symm.trans hfire) Bool.false_ne_true
  obtain ⟨hreq, hsym, haddr⟩ := hstarts.request hbook
  refine ⟨hstarts.rdBusy, (congrArg AxiTarget.kind hstarts.target).trans hbook, hreq, ?_, ?_, ?_,
    ?_⟩
  · exact hsym.trans (congrArg AxiTarget.sym hstarts.target)
  · exact haddr.trans (congrArg AxiTarget.idx hstarts.target)
  · rw [hstarts.rvalid, hfree.2, Bool.false_and]
  · intro s
    have hedge : t.afterReset i inp (n + 1) = (t.afterReset i inp n).edge false (inp n) := rfl
    rw [hedge, h1Valid_edge, hnoreq]
    rfl

/-- The slave waits. -/
theorem Asking.waits {d : AxiTarget p.toAxiParams} (h : t.Asking d) :
    AxiCtrl.ReadWaits t.ctrl (t.axiIn i) (t.ctrl.edge false (t.axiIn i)) := by
  have hnofire : t.ctrl.arFire (t.axiIn i) = false := by
    rw [AxiCtrl.arFire, AxiCtrl.arready, h.rdBusy, Bool.not_true, Bool.false_and, Bool.and_false]
  have hnoack : (t.axiIn i).hostRdAck = false := by
    refine List.any_eq_false.mpr fun s _ => ?_
    rw [BookBank.hostRdAck, h.unacked s]
    exact Bool.false_ne_true
  rcases AxiCtrl.read_cases t.ctrl (t.axiIn i) with hc | hc | hc
  · exact absurd (hnofire.symm.trans hc.fires) Bool.false_ne_true
  · exact absurd (hnoack.symm.trans (hc.acked h.rK)) Bool.false_ne_true
  · exact hc

/-- The feed has the bank. -/
theorem Asking.edge {d : AxiTarget p.toAxiParams} (h : t.Asking d)
    (hupd : (t.bank d.sym).updGo (t.bankIn i d.sym) = true) : (t.edge false i).Asking d := by
  have hwaits := h.waits (i := i)
  refine ⟨hwaits.rdBusy.trans h.rdBusy, hwaits.rK.trans h.rK, hwaits.hostRdReq.trans h.hostRdReq,
    hwaits.hostRdSym.trans h.hostRdSym, hwaits.hostRdAddr.trans h.hostRdAddr, ?_, fun s => ?_⟩
  · refine hwaits.rvalid.trans ?_
    rw [h.rvalid, Bool.false_and]
  · rw [h1Valid_edge, h.hostRdSym]
    by_cases hs : d.sym = s
    · rw [← hs, hupd, Bool.not_true, Bool.and_false, Bool.false_and]
    · rw [beq_eq_false_iff_ne.mpr hs, Bool.and_false, Bool.false_and, Bool.false_and]

/-- The read goes out. -/
theorem Asking.issue {d : AxiTarget p.toAxiParams} (h : t.Asking d)
    (hupd : (t.bank d.sym).updGo (t.bankIn i d.sym) = false) :
    (t.edge false i).Acked d
      ((t.bank d.sym).settled (d.idx.setWidth (p.wselW + 5 + 1))) := by
  have hwaits := h.waits (i := i)
  have hgo : (t.bank d.sym).hostGo (t.bankIn i d.sym) = true := by
    rw [BookBank.hostGo, hupd, h.unacked, bankIn, h.hostRdReq, h.hostRdSym, beq_self_eq_true]
    rfl
  have hdata := BookBank.hostRdData_edge hgo
  have haddr : (t.bankIn i d.sym).hostRdAddr = d.idx.setWidth (p.wselW + 5 + 1) := by
    rw [bankIn, h.hostRdAddr]
  rw [haddr] at hdata
  refine ⟨hwaits.rdBusy.trans h.rdBusy, hwaits.rK.trans h.rK, hwaits.hostRdSym.trans h.hostRdSym,
    ?_, hgo, hdata⟩
  refine hwaits.rvalid.trans ?_
  rw [h.rvalid, Bool.false_and]

/-- The slave answers. -/
theorem Acked.edge {d : AxiTarget p.toAxiParams} {q : BitVec p.qtyW} (h : t.Acked d q)
    (hsym : d.sym.toNat < p.nSym) : (t.edge false i).Responds q := by
  have hack : (t.axiIn i).hostRdAck = true := by
    refine List.any_eq_true.mpr ⟨d.sym, ?_, h.acked⟩
    refine List.mem_map.mpr ⟨d.sym.toNat, List.mem_range.mpr hsym, ?_⟩
    rw [BitVec.ofNat_toNat, BitVec.setWidth_eq]
  have hnofire : t.ctrl.arFire (t.axiIn i) = false := by
    rw [AxiCtrl.arFire, AxiCtrl.arready, h.rdBusy, Bool.not_true, Bool.false_and, Bool.and_false]
  have hdata : (t.axiIn i).hostRdData = q := by
    rw [axiIn, h.hostRdSym, h.data]
  have hresponse : (t.edge false i).ctrl.rvalid = true ∧ (t.edge false i).ctrl.rresp = okay ∧
      (t.edge false i).ctrl.rdata = (t.axiIn i).hostRdData.setWidth 32 := by
    simp only [MmTop.edge, AxiCtrl.edge, AxiCtrl.readEdge, hnofire, h.rdBusy, h.rK, hack,
      Bool.false_eq_true, if_false, if_true, and_self]
  rw [hdata] at hresponse
  exact ⟨hresponse.1, hresponse.2.1, hresponse.2.2⟩

section

variable (t i inp)

/-- A read of the book is accepted in cycle `n`. -/
structure BookRead (n : ℕ) : Prop where
  fires : (t.afterReset i inp n).ctrl.arFire ((t.afterReset i inp n).axiIn (inp n)) = true
  book : (p.decode (inp n).araddr).kind = .book

/-- The bank of a symbol takes an update in cycle `n`. -/
def takes (s : BitVec p.symW) (n : ℕ) : Bool :=
  ((t.afterReset i inp n).bank s).updGo (t.bankInAt i inp s n)

/-- Cycle `k` is the first one after cycle `n` in which the bank of a symbol takes no update. -/
structure FirstFree (s : BitVec p.symW) (n k : ℕ) : Prop where
  lt : n < k
  free : takes t i inp s k = false
  busy : ∀ m, n < m → m < k → takes t i inp s m = true

/-- The first response after cycle `n` starts in cycle `k`. -/
structure Answered (n k : ℕ) (q : BitVec p.qtyW) : Prop where
  lt : n < k
  waits : ∀ m, n < m → m < k → (t.afterReset i inp m).ctrl.rvalid = false
  responds : (t.afterReset i inp k).Responds q

/-- The word that a read of the book is for. -/
def readAddr (n : ℕ) : LevelAddr p.wselW :=
  (p.decode (inp n).araddr).idx.setWidth (p.wselW + 5 + 1)

end

/-- **A read of the book** is answered by the word as its bank finds it. -/
theorem BookRead.answered {n k : ℕ} (h : BookRead t i inp n)
    (hfree : FirstFree t i inp (p.decode (inp n).araddr).sym n k) : Answered t i inp n (k + 2)
      (((t.afterReset i inp k).bank (p.decode (inp n).araddr).sym).settled (readAddr inp n)) := by
  have hasking : ∀ m, n + 1 ≤ m → m ≤ k →
      Asking (t.afterReset i inp m) (p.decode (inp n).araddr) := by
    intro m hm hk
    induction m, hm using Nat.le_induction with
    | base => exact asking_of_arFire h.fires h.book
    | succ m hm ih => exact (ih (Nat.le_of_succ_le hk)).edge (hfree.busy m hm hk)
  have hacked := (hasking k hfree.lt le_rfl).issue hfree.free
  refine ⟨Nat.lt_add_right 2 hfree.lt, fun m hm hk => ?_, hacked.edge (p.sym_lt h.book)⟩
  rcases Nat.lt_or_eq_of_le (Nat.le_of_lt_succ hk) with hlt | rfl
  · exact (hasking m hm (Nat.le_of_lt_succ hlt)).rvalid
  · exact hacked.rvalid

/-- The word of a read that goes out before the first update. -/
theorem settled_untouched {s : BitVec p.symW} {k : ℕ} (hnone : ∀ m < k, takes t i inp s m = false)
    (a : LevelAddr p.wselW) : ((t.afterReset i inp k).bank s).settled a =
      if a.toNat < k then 0 else ((t.afterReset i inp 0).bank s).levelQty a := by
  rw [afterReset_bank]
  refine BookBank.settled_untouched (fun m hm => ?_) a
  have hm := hnone m hm
  rw [takes, afterReset_bank] at hm
  exact hm

/-! ### The top of the book -/

section

variable (t) (rst : ℕ → Bool) (inp)

/-- The registers after `n` clocks, with the reset in some of them. -/
def run (n : ℕ) : MmTop p :=
  Clocked.after (fun t (x : Bool × MmIn p) => edge x.1 t x.2) t (fun n => (rst n, inp n)) n

/-- The bank of a symbol takes an update in cycle `n`, and is not reset. -/
def runTakes (s : BitVec p.symW) (n : ℕ) : Bool :=
  !rst n && ((run t inp rst n).bank s).updGo ((run t inp rst n).bankIn (inp n) s)

end

variable {rst : ℕ → Bool} {s : BitVec p.symW} {e n : ℕ}

open Clocked (Trails Behind)

/-- An update in S1 has been taken one cycle before. -/
theorem behind_s1Valid (s : BitVec p.symW) (hrst : rst e = true) :
    Behind e 1 (runTakes t inp rst s) fun n => ((run t inp rst n).bank s).s1Valid := by
  have hsource : Behind e 0 (runTakes t inp rst s) (runTakes t inp rst s) :=
    fun n hn hbit => ⟨n, hn, rfl, hbit⟩
  have htrails : Trails rst (runTakes t inp rst s)
      fun n => ((run t inp rst n).bank s).s1Valid := by
    intro n
    have hedge : ((run t inp rst (n + 1)).bank s).s1Valid = if rst n then false
        else ((run t inp rst n).bank s).updGo ((run t inp rst n).bankIn (inp n) s) := rfl
    rw [runTakes]
    refine hedge.trans ?_
    cases rst n <;> rfl
  exact htrails.behind hrst hsource

/-- `tob_valid` follows an update by four cycles. -/
theorem behind_tobValid (s : BitVec p.symW) (hrst : rst e = true) :
    Behind e 4 (runTakes t inp rst s) fun n => ((run t inp rst n).bank s).tobValid := by
  have hmap : Trails rst (fun n => ((run t inp rst n).bank s).s1Valid)
      fun n => ((run t inp rst n).bank s).vMap := fun _ => rfl
  have hB1 : Trails rst (fun n => ((run t inp rst n).bank s).vMap)
      fun n => ((run t inp rst n).bank s).vB1 := fun _ => rfl
  have htob : Trails rst (fun n => ((run t inp rst n).bank s).vB1)
      fun n => ((run t inp rst n).bank s).tobValid := fun _ => rfl
  exact htob.behind hrst (hB1.behind hrst (hmap.behind hrst (behind_s1Valid s hrst)))

/-- The bitmaps are empty until an update gets there. -/
theorem maps_empty (s : BitVec p.symW) (hrst : rst e = true) {n : ℕ} (hn : e < n)
    (hnone : ∀ m, e < m → m + 2 ≤ n → runTakes t inp rst s m = false) :
    (∀ l, ((run t inp rst n).bank s).bidMap l = false) ∧
      ∀ l, ((run t inp rst n).bank s).askMap l = false := by
  induction n, hn using Nat.le_induction with
  | base =>
    have hedge : (run t inp rst (e + 1)).bank s =
        ((run t inp rst e).bank s).edge (rst e) ((run t inp rst e).bankIn (inp e) s) := rfl
    rw [hedge, hrst]
    exact ⟨fun _ => rfl, fun _ => rfl⟩
  | succ n hn ih =>
    have hs1 : ((run t inp rst n).bank s).s1Valid = false := by
      rw [← Bool.not_eq_true]
      intro hbit
      obtain ⟨m, hm, rfl, htakes⟩ := behind_s1Valid s hrst n hn hbit
      exact Bool.false_ne_true ((hnone m hm le_rfl).symm.trans htakes)
    have hmaps := ih fun m hm hle => hnone m hm (Nat.le_succ_of_le hle)
    have hedge : (run t inp rst (n + 1)).bank s =
        ((run t inp rst n).bank s).edge (rst n) ((run t inp rst n).bankIn (inp n) s) := rfl
    rw [hedge]
    simp only [BookBank.edge, hs1, Bool.false_and, Bool.false_eq_true, if_false]
    cases rst n with
    | false => exact hmaps
    | true => exact ⟨fun _ => rfl, fun _ => rfl⟩

/-- The flags of the top of the book follow the bitmaps by two cycles. -/
theorem present_empty (s : BitVec p.symW) (hrst : rst e = true) {n : ℕ} (hn : e + 3 ≤ n)
    (hnone : ∀ m, e < m → m + 4 ≤ n → runTakes t inp rst s m = false) :
    ((run t inp rst n).bank s).bidPresent = false ∧
      ((run t inp rst n).bank s).askPresent = false := by
  obtain ⟨n, rfl⟩ : ∃ k, n = k + 2 := ⟨n - 2, by omega⟩
  obtain ⟨hbid, hask⟩ := maps_empty (n := n) s hrst (by omega) fun m hm hle =>
    hnone m hm (by omega)
  have hempty : ∀ map : BitVec (p.wselW + 5) → Bool, (∀ l, map l = false) →
      BookBank.present map = false := by
    intro map hmap
    rw [← Bool.not_eq_true, BookBank.present_iff]
    rintro ⟨l, hl⟩
    exact Bool.false_ne_true ((hmap l).symm.trans hl)
  exact ⟨hempty _ hbid, hempty _ hask⟩

end MmTop

open MmTop in
/-- **Reset.** A read of the book that is accepted after a reset is answered with `OKAY` when its
bank leaves it a cycle; if it goes out before the first update it returns 0 where the clear has
passed, and the word that the reset has left where it has not. From the third clock on after a clock
with the reset, and until an update has gone down the pipeline, the flags of the top of the book are
low; `tob_valid` is low from the first one on. -/
theorem reset_erases {p : MmParams} (t : MmTop p) :
    (∀ i inp n k, BookRead t i inp n → FirstFree t i inp (p.decode (inp n).araddr).sym n k →
      ∃ q, Answered t i inp n (k + 2) q ∧
        ((∀ m < k, takes t i inp (p.decode (inp n).araddr).sym m = false) →
          q = if (readAddr inp n).toNat < k then 0
            else ((t.afterReset i inp 0).bank (p.decode (inp n).araddr).sym).levelQty
              (readAddr inp n))) ∧
      ∀ rst inp e n s, rst e = true → e < n →
        (∀ m, e < m → m + 4 ≤ n → runTakes t inp rst s m = false) →
          ((run t inp rst n).bank s).tobValid = false ∧
            (e + 3 ≤ n → ((run t inp rst n).bank s).bidPresent = false ∧
              ((run t inp rst n).bank s).askPresent = false) := by
  refine ⟨fun i inp n k hread hfree => ⟨_, hread.answered hfree, fun hnone => ?_⟩, ?_⟩
  · exact settled_untouched hnone (readAddr inp n)
  · intro rst inp e n s hrst hn hnone
    refine ⟨?_, fun hle => present_empty s hrst hle hnone⟩
    rw [← Bool.not_eq_true]
    intro hbit
    obtain ⟨m, hm, rfl, htakes⟩ := behind_tobValid s hrst n hn hbit
    exact Bool.false_ne_true ((hnone m hm le_rfl).symm.trans htakes)

/-! ### A book that has been in use -/

namespace MmSmall

open MmTop

/-- Two symbols of 128 levels. -/
def params : MmParams where
  nSym := 2
  levels := 128
  qtyW := 8
  posW := 8
  aw := 24
  two_le_nSym := Nat.one_lt_two
  le_levels := by decide
  le_aw := by decide +kernel
  wselW := 2
  levels_eq := by decide
  windows := by decide +kernel

/-- A cycle in which a bid of 5 comes in at level 3, or not, and level 3 is read, or not. -/
def cycle (update read : Bool) : MmIn params where
  awaddr := 0
  awvalid := false
  wdata := 0
  wvalid := false
  bready := true
  araddr := 0x80040C#24
  arvalid := read
  rready := true
  updValid := update
  updSym := 0
  updSide := false
  updIdx := 3
  updDelta := 5

/-- The registers at power-up. -/
def powerUp : MmTop params where
  ctrl :=
    { bvalid := false
      bresp := 0
      quoteEnable := false
      hsR := fun _ => 0
      limR := fun _ => 0
      cfgSym := 0
      cfgLutWe := false
      cfgLutAddr := 0
      cfgLutData := 0
      cfgLutSwap := false
      rdBusy := false
      rK := .none
      rSym := 0
      rI := 0
      rvalid := false
      rresp := 0
      rdata := 0
      hostRdReq := false
      hostRdSym := 0
      hostRdAddr := 0 }
  bank := fun _ => .resting fun _ => 0

/-- The bid comes in at the first cycle that takes it. -/
def feed (n : ℕ) : MmIn params := cycle (n == 256) false

/-- The books when the bid has been written. -/
def used : MmTop params := powerUp.afterReset (cycle false false) feed 258

/-- The read is for level 3 of the bids of the first symbol. -/
theorem decode_read : (params.decode 0x80040C#24).kind = .book ∧
    (params.decode 0x80040C#24).sym = 0 ∧
      (params.decode 0x80040C#24).idx.setWidth (2 + 5 + 1) = 3#8 := by
  decide +kernel

/-- The first bank on its own, from the reset on. -/
def bankAt (inp : ℕ → MmIn params) (n : ℕ) : BookBank params.wselW params.qtyW :=
  (powerUp.bank 0).afterReset (powerUp.bankIn (cycle false false) 0)
    (powerUp.bankInAt (cycle false false) inp 0) n

/-- The bid is the first update that is accepted. -/
theorem accepted_bid {N : ℕ} (hN : 256 ≤ N) (inp : ℕ → MmIn params)
    (hinp : ∀ n, (inp n).updValid = (n == N)) (hsym : ∀ n, (inp n).updSym = 0) :
    BookBank.accepted (powerUp.bank 0) (powerUp.bankIn (cycle false false) 0)
      (powerUp.bankInAt (cycle false false) inp 0) (N + 1) =
        [powerUp.bankInAt (cycle false false) inp 0 N] := by
  refine BookBank.accepted_single _ _ _ hN fun n => ?_
  have hvalid : (powerUp.bankInAt (cycle false false) inp 0 n).updValid =
      ((inp n).updValid && (inp n).updSym == 0) := rfl
  rw [hvalid, hinp, hsym, beq_self_eq_true, Bool.and_true]

/-- What the bid is at its level. -/
theorem quantity_bid (inp : ℕ → MmIn params) (N : ℕ)
    (hinp : inp N = cycle true false) :
    quantity [powerUp.bankInAt (cycle false false) inp 0 N] false 3 = 5 := by
  have hbid : powerUp.bankInAt (cycle false false) inp 0 N =
      (powerUp.afterReset (cycle false false) inp N).bankIn (cycle true false) 0 := by
    rw [MmTop.bankInAt, hinp]
  rw [hbid]
  rfl

theorem bankAt_clrBusy {N : ℕ} (hN : 256 ≤ N) (inp : ℕ → MmIn params) :
    (bankAt inp N).ready = true ∧ (bankAt inp N).clrBusy = false := by
  have hready : (bankAt inp N).ready = true := (BookBank.ready_iff _ _ _ _).mpr hN
  refine ⟨hready, ?_⟩
  rw [BookBank.ready, Bool.not_eq_true'] at hready
  exact hready

/-- The level in use. -/
theorem used_bank : (used.bank 0).clrBusy = false ∧ (used.bank 0).s1Valid = false ∧
    (used.bank 0).levelQty 3 = 5 ∧ (used.bank 0).bidMap 3 = true := by
  have hbank : used.bank 0 = bankAt feed 258 := powerUp.afterReset_bank _ _ _ _
  obtain ⟨hready, hbusy⟩ := bankAt_clrBusy (by decide : 256 ≤ 258) feed
  have hdrained : (bankAt feed 258).s1Valid = false := rfl
  have hsecond : BookBank.accepts (powerUp.bank 0) (powerUp.bankIn (cycle false false) 0)
      (powerUp.bankInAt (cycle false false) feed 0) 257 = false := rfl
  have haccepted := BookBank.accepted_succ (powerUp.bank 0) (powerUp.bankIn (cycle false false) 0)
    (powerUp.bankInAt (cycle false false) feed 0) 257
  rw [hsecond, if_neg Bool.false_ne_true,
    accepted_bid (le_refl 256) feed (fun _ => rfl) fun _ => rfl] at haccepted
  have hqty : (((bankAt feed 258).levelQty 3).toNat : ℤ) = 5 :=
    (BookBank.levelQty_drained hready hdrained false 3).trans
      ((congrArg (quantity · false 3) haccepted).trans (quantity_bid feed 256 rfl))
  have hfive : (bankAt feed 258).levelQty 3 = 5 := by
    refine BitVec.eq_of_toNat_eq ?_
    exact_mod_cast hqty
  have hmap : (bankAt feed 258).bidMap 3 = ((bankAt feed 258).levelQty 3 != 0) :=
    (BookBank.inv_afterReset _ _ _ 258).bidMap hbusy 3
  rw [hbank]
  refine ⟨hbusy, hdrained, hfive, hmap.trans ?_⟩
  rw [hfive]
  rfl

/-- The books are reset, and level 3 is read at once. -/
def readAtOnce (n : ℕ) : MmIn params := cycle false (n == 0)

/-- The read finds what was there before the reset. -/
theorem stale_read : BookRead used (cycle false false) readAtOnce 0 ∧
    Answered used (cycle false false) readAtOnce 0 3 5 := by
  have hread : BookRead used (cycle false false) readAtOnce 0 := ⟨rfl, decode_read.1⟩
  have hfree : FirstFree used (cycle false false) readAtOnce
      (params.decode (readAtOnce 0).araddr).sym 0 1 := by
    refine ⟨by decide, rfl, fun m hm hk => ?_⟩
    omega
  refine ⟨hread, ?_⟩
  have hanswered := hread.answered hfree
  have hword : ((used.afterReset (cycle false false) readAtOnce 1).bank
      (params.decode (readAtOnce 0).araddr).sym).settled (readAddr readAtOnce 0) = 5 := by
    have haddr : readAddr readAtOnce 0 = 3 := decode_read.2.2
    have hsym : (params.decode (readAtOnce 0).araddr).sym = 0 := decode_read.2.1
    obtain ⟨hbusy, hdrained, hfive, -⟩ := used_bank
    rw [settled_untouched (fun m hm => ?_), haddr, hsym, if_neg (by decide)]
    · have hkept : ((used.afterReset (cycle false false) readAtOnce 0).bank 0).levelQty =
          (used.bank 0).levelQty := by
        have hedge : ((used.afterReset (cycle false false) readAtOnce 0).bank 0) =
            (used.bank 0).edge true (used.bankIn (cycle false false) 0) := rfl
        rw [hedge]
        simp only [BookBank.edge, hbusy, hdrained, Bool.false_eq_true, if_false]
      rw [hkept]
      exact hfive
    · obtain rfl : m = 0 := Nat.lt_one_iff.mp hm
      rfl
  rw [hword] at hanswered
  exact hanswered

/-- Level 3 is read, and the bid comes in at the next cycle. -/
def overtake (n : ℕ) : MmIn params := cycle (n == 257) (n == 256)

/-- The bid overtakes the read. -/
theorem overtaken_read : BookRead powerUp (cycle false false) overtake 256 ∧
    (∀ m ≤ 256, ∀ s, takes powerUp (cycle false false) overtake s m = false) ∧
    Answered powerUp (cycle false false) overtake 256 260 5 := by
  have hread : BookRead powerUp (cycle false false) overtake 256 := by
    have hidle : (powerUp.afterReset (cycle false false) overtake 256).ctrl.rdBusy = false ∧
        (powerUp.afterReset (cycle false false) overtake 256).ctrl.rvalid = false :=
      idle_afterReset 256 fun m hm => beq_eq_false_iff_ne.mpr hm.ne
    obtain ⟨hbusy, hvalid⟩ := hidle
    refine ⟨?_, decode_read.1⟩
    rw [AxiCtrl.arFire, AxiCtrl.arready, hbusy, hvalid]
    rfl
  have hnone : ∀ m ≤ 256, ∀ s, takes powerUp (cycle false false) overtake s m = false := by
    intro m hm s
    have hvalid : (overtake m).updValid = false := beq_eq_false_iff_ne.mpr (by omega)
    have htakes : takes powerUp (cycle false false) overtake s m = ((overtake m).updValid &&
        (overtake m).updSym == s && ((powerUp.afterReset (cycle false false) overtake m).bank
          s).ready) := rfl
    rw [htakes, hvalid, Bool.false_and, Bool.false_and]
  obtain ⟨hready, hbusy⟩ := bankAt_clrBusy (by decide : 256 ≤ 258) overtake
  have hfree : FirstFree powerUp (cycle false false) overtake
      (params.decode (overtake 256).araddr).sym 256 258 := by
    have hsym : (params.decode (overtake 256).araddr).sym = 0 := decode_read.2.1
    rw [hsym]
    refine ⟨by decide, rfl, fun m hm hk => ?_⟩
    obtain rfl : m = 257 := by omega
    have hbank : (powerUp.afterReset (cycle false false) overtake 257).bank 0 =
        bankAt overtake 257 := powerUp.afterReset_bank _ _ _ _
    rw [takes, BookBank.updGo, hbank, (bankAt_clrBusy (by decide) overtake).1]
    rfl
  refine ⟨hread, hnone, ?_⟩
  have hanswered := hread.answered hfree
  have hword : ((powerUp.afterReset (cycle false false) overtake 258).bank
      (params.decode (overtake 256).araddr).sym).settled (readAddr overtake 256) = 5 := by
    have haddr : readAddr overtake 256 = BitVec.cons false 3 := decode_read.2.2
    have hsym : (params.decode (overtake 256).araddr).sym = 0 := decode_read.2.1
    have hbank : (powerUp.afterReset (cycle false false) overtake 258).bank 0 =
        bankAt overtake 258 := powerUp.afterReset_bank _ _ _ _
    have hbook := (BookBank.inv_afterReset (powerUp.bank 0) (powerUp.bankIn (cycle false false) 0)
      (powerUp.bankInAt (cycle false false) overtake 0) 258).book hbusy false 3
    have hqty : ((((bankAt overtake 258).settled (BitVec.cons false 3)).toNat : ℕ) : ℤ) = 5 := by
      rw [bankAt, ← hbook, BookBank.refBook_eq, accepted_bid (by decide : 256 ≤ 257) overtake
        (fun _ => rfl) fun _ => rfl]
      exact quantity_bid overtake 257 rfl
    rw [haddr, hsym, hbank]
    refine BitVec.eq_of_toNat_eq ?_
    exact_mod_cast hqty
  rw [hword] at hanswered
  exact hanswered

end MmSmall

open MmTop MmSmall in
/-- A read that is accepted before the first update need not return 0, neither at once after the
reset nor when the RAM has been cleared, and the flags of the top of the book need not be low in the
second clock. -/
theorem not_reset_erases :
    (¬∀ (p : MmParams) (t₀ : MmTop p) (i₀ : MmIn p) (history : ℕ → MmIn p) (N : ℕ) (i : MmIn p)
      (inp : ℕ → MmIn p) (n k : ℕ) (q : BitVec p.qtyW),
      BookRead (t₀.afterReset i₀ history N) i inp n →
        (∀ m ≤ n, ∀ s, takes (t₀.afterReset i₀ history N) i inp s m = false) →
          Answered (t₀.afterReset i₀ history N) i inp n k q → q.setWidth 32 = 0) ∧
      (¬∀ (p : MmParams) (t : MmTop p) (i : MmIn p) (inp : ℕ → MmIn p) (n k : ℕ)
        (q : BitVec p.qtyW), BookRead t i inp n → 2 ^ (p.wselW + 5 + 1) ≤ n →
          (∀ m ≤ n, ∀ s, takes t i inp s m = false) → Answered t i inp n k q →
            q.setWidth 32 = 0) ∧
      ¬∀ (p : MmParams) (t₀ : MmTop p) (i₀ : MmIn p) (history : ℕ → MmIn p) (N : ℕ)
        (rst : ℕ → Bool) (inp : ℕ → MmIn p) (e n : ℕ) (s : BitVec p.symW), rst e = true → e < n →
          (∀ m, e < m → runTakes (t₀.afterReset i₀ history N) inp rst s m = false) →
            ((run (t₀.afterReset i₀ history N) inp rst n).bank s).bidPresent = false := by
  refine ⟨fun h => ?_, fun h => ?_, fun h => ?_⟩
  · obtain ⟨hread, hanswered⟩ := stale_read
    have hnone : ∀ m ≤ 0, ∀ s, takes used (cycle false false) readAtOnce s m = false := by
      rintro m hm s
      obtain rfl := Nat.le_zero.mp hm
      rfl
    have hzero := h params powerUp (cycle false false) feed 258 (cycle false false) readAtOnce 0 3 5
      hread hnone hanswered
    exact absurd hzero (by decide)
  · obtain ⟨hread, hnone, hanswered⟩ := overtaken_read
    have hzero := h params powerUp (cycle false false) overtake 256 260 5 hread (by decide) hnone
      hanswered
    exact absurd hzero (by decide)
  · obtain ⟨-, -, -, hmap⟩ := used_bank
    have hpresent := h params powerUp (cycle false false) feed 258 (· == 0)
      (fun _ => cycle false false) 0 2 0 rfl (by decide) fun m hm => ?_
    · have hrun : ∀ t : MmTop params, ((run t (fun _ => cycle false false) (· == 0) 2).bank
          0).bidPresent = BookBank.present (t.bank 0).bidMap := fun _ => rfl
      rw [hrun, ← Bool.not_eq_true] at hpresent
      rw [used] at hmap
      exact hpresent (BookBank.present_iff.mpr ⟨3, hmap⟩)
    · rw [runTakes]
      exact Bool.and_false _

end Fmma
