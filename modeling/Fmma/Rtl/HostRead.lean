import Fmma.Rtl.BookQuantities

/-!
# Host reads of the book

The host reads a quantity through the read port of the RAM, in a cycle that the feed leaves free.
What it gets is the quantity of the cycle in which its read goes out, and the feed does not notice.
-/

namespace Fmma

variable {wselW qtyW : ℕ}

namespace BookBank

/-! ### One read -/

/-- What a read that goes out comes back with. -/
theorem hostRdData_edge {b : BookBank wselW qtyW} {i : BookIn wselW qtyW}
    (hgo : b.hostGo i = true) : (edge false b i).hostRdData = b.settled i.hostRdAddr := by
  have hupd : b.updGo i = false := by
    rw [hostGo, Bool.and_eq_true, Bool.and_eq_true, Bool.not_eq_true'] at hgo
    exact hgo.1.2
  have hdata : (edge false b i).hostRdData =
      if b.s1Valid && b.s1Addr == i.hostRdAddr then b.newQty else b.levelQty (b.rdAddr i) := rfl
  rw [hdata, rdAddr, hupd, if_neg Bool.false_ne_true, settled]
  cases hv : b.s1Valid with
  | false => rw [Bool.false_and, if_neg Bool.false_ne_true, if_neg Bool.false_ne_true]
  | true =>
    rw [Bool.true_and, if_pos rfl]
    by_cases haddr : b.s1Addr = i.hostRdAddr
    · rw [if_pos (beq_iff_eq.mpr haddr), ← haddr, Function.update_self]
    · rw [if_neg (mt beq_iff_eq.mp haddr), Function.update_of_ne (Ne.symm haddr)]

section

variable (b : BookBank wselW qtyW) (i : BookIn wselW qtyW) (inp : ℕ → BookIn wselW qtyW)

/-- A read goes out in cycle `n`. -/
def issues (n : ℕ) : Bool := (afterReset b i inp n).hostGo (inp n)

/-- A read is acknowledged in cycle `n`. -/
def acks (n : ℕ) : Bool := (afterReset b i inp n).hostRdAck

/-- The quantity that is read in cycle `n`. -/
def readData (n : ℕ) : ℤ := (afterReset b i inp n).hostRdData.toNat

/-- A request goes up in cycle `a`: it was down before, or the one before it is acknowledged. -/
def Raised (a : ℕ) : Prop :=
  (inp a).hostRdReq = true ∧
    ∀ n, a = n + 1 → (inp n).hostRdReq = false ∨ acks b i inp n = true

/-- From cycle `a` on a request and its address are held until the acknowledge. -/
def HeldUntilAck (a : ℕ) : Prop :=
  ∀ n, a ≤ n → (∀ m, a ≤ m → m < n → acks b i inp m = false) →
    (inp n).hostRdReq = true ∧ (inp n).hostRdAddr = (inp a).hostRdAddr

/-- Cycle `k` is the first one from cycle `a` on that carries no update. -/
structure FirstGap (a k : ℕ) : Prop where
  le : a ≤ k
  gap : (inp k).updValid = false
  busy : ∀ n, a ≤ n → n < k → (inp n).updValid = true

/-- A request that goes up in cycle `a` is served by a read in cycle `k`. -/
structure Served (a k : ℕ) : Prop where
  issued : issues b i inp k = true
  waits : ∀ n, a ≤ n → n ≤ k → acks b i inp n = false
  ack : acks b i inp (k + 1) = true
  once : acks b i inp (k + 2) = false
  data : readData b i inp (k + 1) = quantity (accepted b i inp k) (inp a).hostRdAddr.msb
    ((inp a).hostRdAddr.setWidth (wselW + 5))

theorem acks_succ (n : ℕ) : acks b i inp (n + 1) = issues b i inp n := rfl

theorem issues_eq (n : ℕ) : issues b i inp n =
    ((inp n).hostRdReq && !(afterReset b i inp n).updGo (inp n) && !acks b i inp n) := rfl

variable {b i inp}

/-- While the bank takes updates, a read goes out in no cycle that carries one. -/
theorem updValid_of_issues {n : ℕ} (hready : (afterReset b i inp n).ready = true)
    (h : issues b i inp n = true) : (inp n).updValid = false := by
  rw [issues_eq, updGo, hready, Bool.and_true] at h
  simp only [Bool.and_eq_true, Bool.not_eq_true'] at h
  exact h.1.2

/-- **Linearization.** A read returns the quantity of the cycle in which it goes out. -/
theorem readData_succ {n : ℕ} (hready : (afterReset b i inp n).ready = true)
    (h : issues b i inp n = true) : readData b i inp (n + 1) =
      quantity (accepted b i inp n) (inp n).hostRdAddr.msb
        ((inp n).hostRdAddr.setWidth (wselW + 5)) := by
  have hbusy : (afterReset b i inp n).clrBusy = false := by
    rw [ready, Bool.not_eq_true'] at hready
    exact hready
  have hbook := (inv_afterReset b i inp n).book hbusy (inp n).hostRdAddr.msb
    ((inp n).hostRdAddr.setWidth (wselW + 5))
  have haddr : BitVec.cons (inp n).hostRdAddr.msb ((inp n).hostRdAddr.setWidth (wselW + 5)) =
      (inp n).hostRdAddr := cons_eq_iff.mpr ⟨rfl, rfl⟩
  have hdata : readData b i inp (n + 1) =
      ((afterReset b i inp n).settled (inp n).hostRdAddr).toNat :=
    congrArg (fun q => (q.toNat : ℤ)) (hostRdData_edge h)
  rw [hdata, ← refBook_eq, hbook, haddr]

/-- The bank stays ready. -/
theorem ready_mono {a n : ℕ} (hready : (afterReset b i inp a).ready = true) (h : a ≤ n) :
    (afterReset b i inp n).ready = true :=
  (ready_iff b i inp n).mpr (((ready_iff b i inp a).mp hready).trans h)

theorem Raised.acks (h : Raised b i inp a) : acks b i inp a = false := by
  cases a with
  | zero => rfl
  | succ n =>
    rw [acks_succ, issues_eq]
    rcases h.2 n rfl with hreq | hack
    · rw [hreq]
      rfl
    · rw [hack, Bool.not_true, Bool.and_false]

/-- While there is an update in every cycle, a request is not acknowledged. -/
theorem Raised.starves {a k : ℕ} (hraised : Raised b i inp a)
    (hready : (afterReset b i inp a).ready = true)
    (hbusy : ∀ n, a ≤ n → n < k → (inp n).updValid = true) :
    ∀ n, a ≤ n → n ≤ k → BookBank.acks b i inp n = false := by
  intro n hn hk
  induction n, hn using Nat.le_induction with
  | base => exact hraised.acks
  | succ n hn ih =>
    rw [acks_succ, issues_eq, updGo, ready_mono hready hn, hbusy n hn hk]
    simp only [Bool.and_self, Bool.not_true, Bool.and_false, Bool.false_and]

/-- **A request** is served by the first cycle that carries no update. -/
theorem Raised.served {a k : ℕ} (hraised : Raised b i inp a) (hheld : HeldUntilAck b i inp a)
    (hready : (afterReset b i inp a).ready = true) (hgap : FirstGap inp a k) :
    Served b i inp a k := by
  have hwaits := hraised.starves hready hgap.busy
  obtain ⟨hreq, haddr⟩ := hheld k hgap.le fun m hm hk => hwaits m hm (Nat.le_of_lt hk)
  have hissued : issues b i inp k = true := by
    rw [issues_eq, hreq, updGo, hgap.gap, hwaits k hgap.le le_rfl]
    rfl
  have honce : BookBank.acks b i inp (k + 2) = false := by
    rw [acks_succ, issues_eq, acks_succ, hissued, Bool.not_true, Bool.and_false]
  have hdata := readData_succ (ready_mono hready hgap.le) hissued
  rw [haddr] at hdata
  exact ⟨hissued, hwaits, hissued, honce, hdata⟩

end

/-! ### The feed does not notice -/

/-- Two cycles carry the same update, or none. -/
structure SameUpdate (i i' : BookIn wselW qtyW) : Prop where
  updValid : i.updValid = i'.updValid
  updSide : i.updSide = i'.updSide
  updIdx : i.updIdx = i'.updIdx
  updDelta : i.updDelta = i'.updDelta

/-- Two banks are alike but for what the host has asked: the registers of the pipeline count as far
as they are valid. -/
structure Alike (b b' : BookBank wselW qtyW) : Prop where
  clrBusy : b.clrBusy = b'.clrBusy
  clrAddr : b.clrAddr = b'.clrAddr
  levelQty : b.levelQty = b'.levelQty
  s1Valid : b.s1Valid = b'.s1Valid
  s1Addr : b.s1Valid = true → b.s1Addr = b'.s1Addr
  newQty : b.s1Valid = true → b.newQty = b'.newQty
  bidMap : b.bidMap = b'.bidMap
  askMap : b.askMap = b'.askMap
  bidAny : b.bidAny = b'.bidAny
  askAny : b.askAny = b'.askAny
  bidLoc : b.bidLoc = b'.bidLoc
  askLoc : b.askLoc = b'.askLoc
  bidPresent : b.bidPresent = b'.bidPresent
  askPresent : b.askPresent = b'.askPresent
  bestBid : b.bestBid = b'.bestBid
  bestAsk : b.bestAsk = b'.bestAsk
  vMap : b.vMap = b'.vMap
  vB1 : b.vB1 = b'.vB1
  tobValid : b.tobValid = b'.tobValid

variable {b b' : BookBank wselW qtyW} {i i' : BookIn wselW qtyW}

theorem Alike.updGo (h : Alike b b') (hi : SameUpdate i i') : b.updGo i = b'.updGo i' := by
  rw [BookBank.updGo, BookBank.updGo, ready, ready, h.clrBusy, hi.updValid]

theorem Alike.settled (h : Alike b b') : b.settled = b'.settled := by
  rw [BookBank.settled, BookBank.settled, ← h.s1Valid, h.levelQty]
  cases hv : b.s1Valid with
  | false => rfl
  | true => rw [h.s1Addr hv, h.newQty hv]

/-- The RAM after an edge. -/
theorem Alike.levelQty_edge (h : Alike b b') :
    (BookBank.edge false b i).levelQty = (BookBank.edge false b' i').levelQty := by
  cases hbusy : b.clrBusy with
  | false =>
    rw [BookBank.levelQty_edge hbusy, BookBank.levelQty_edge (h.clrBusy ▸ hbusy), h.settled]
  | true =>
    have hbusy' : b'.clrBusy = true := h.clrBusy ▸ hbusy
    simp only [BookBank.edge, hbusy, hbusy', h.levelQty, h.clrAddr, if_true]

/-- The bitmaps after an edge. -/
theorem Alike.map_edge (h : Alike b b') :
    (BookBank.edge false b i).bidMap = (BookBank.edge false b' i').bidMap ∧
      (BookBank.edge false b i).askMap = (BookBank.edge false b' i').askMap := by
  simp only [BookBank.edge, ← h.s1Valid, h.bidMap, h.askMap]
  cases hv : b.s1Valid with
  | false => exact ⟨rfl, rfl⟩
  | true =>
    rw [h.s1Addr hv, h.newQty hv]
    exact ⟨rfl, rfl⟩

/-- An update that is accepted goes the same way. -/
theorem Alike.accepted (h : Alike b b') (hi : SameUpdate i i') (hgo : b.updGo i = true) :
    (BookBank.edge false b i).s1Addr = (BookBank.edge false b' i').s1Addr ∧
      (BookBank.edge false b i).newQty = (BookBank.edge false b' i').newQty := by
  have hgo' : b'.updGo i' = true := h.updGo hi ▸ hgo
  have haddr : (BookBank.edge false b i).s1Addr = (BookBank.edge false b' i').s1Addr := by
    simp only [BookBank.edge, rdAddr, hgo, hgo', if_true, hi.updSide, hi.updIdx]
  have hbusy : b.clrBusy = false := by
    rw [BookBank.updGo, Bool.and_eq_true, ready, Bool.not_eq_true'] at hgo
    exact hgo.2
  have hdelta : (BookBank.edge false b i).s1Delta = (BookBank.edge false b' i').s1Delta :=
    hi.updDelta
  refine ⟨haddr, ?_⟩
  rw [BookBank.newQty, BookBank.newQty, curQty_edge hbusy, curQty_edge (h.clrBusy ▸ hbusy), haddr,
    hdelta, h.levelQty_edge]

/-- **Every edge keeps them alike.** -/
theorem Alike.edge (h : Alike b b') (hi : SameUpdate i i') :
    Alike (BookBank.edge false b i) (BookBank.edge false b' i') where
  clrBusy := by simp only [BookBank.edge, h.clrBusy, h.clrAddr]
  clrAddr := by simp only [BookBank.edge, h.clrBusy, h.clrAddr]
  levelQty := h.levelQty_edge
  s1Valid := h.updGo hi
  s1Addr := fun hgo => (h.accepted hi hgo).1
  newQty := fun hgo => (h.accepted hi hgo).2
  bidMap := h.map_edge.1
  askMap := h.map_edge.2
  bidAny := by simp only [BookBank.edge, h.bidMap]
  askAny := by simp only [BookBank.edge, h.askMap]
  bidLoc := by simp only [BookBank.edge, h.bidMap]
  askLoc := by simp only [BookBank.edge, h.askMap]
  bidPresent := by simp only [BookBank.edge, h.bidAny]
  askPresent := by simp only [BookBank.edge, h.askAny]
  bestBid := by simp only [BookBank.edge, h.bidAny, h.bidLoc]
  bestAsk := by simp only [BookBank.edge, h.askAny, h.askLoc]
  vMap := h.s1Valid
  vB1 := h.vMap
  tobValid := h.vB1

/-- After a reset. -/
theorem alike_reset (b : BookBank wselW qtyW) (i i' : BookIn wselW qtyW) :
    Alike (BookBank.edge true b i) (BookBank.edge true b i') := by
  have hvalid : ¬(BookBank.edge true b i).s1Valid = true := Bool.false_ne_true
  exact ⟨rfl, rfl, rfl, rfl, fun h => absurd h hvalid, fun h => absurd h hvalid, rfl, rfl, rfl, rfl,
    rfl, rfl, rfl, rfl, rfl, rfl, rfl, rfl, rfl⟩

/-- **Two runs** with the same updates, whatever the host asks in each. -/
theorem alike_afterReset (b : BookBank wselW qtyW) (i i' : BookIn wselW qtyW)
    {inp inp' : ℕ → BookIn wselW qtyW} (hsame : ∀ n, SameUpdate (inp n) (inp' n)) (n : ℕ) :
    Alike (afterReset b i inp n) (afterReset b i' inp' n) := by
  induction n with
  | zero => exact alike_reset b i i'
  | succ n ih => exact ih.edge (hsame n)

/-- What a bank shows of its book: the quantities and the top. -/
structure SameBook (b b' : BookBank wselW qtyW) : Prop where
  levelQty : b.levelQty = b'.levelQty
  tobValid : b.tobValid = b'.tobValid
  bidPresent : b.bidPresent = b'.bidPresent
  askPresent : b.askPresent = b'.askPresent
  bestBid : b.bestBid = b'.bestBid
  bestAsk : b.bestAsk = b'.bestAsk

end BookBank

open BookBank in
/-- **Host reads.** After a reset, and whatever the feed and the host ask from then on: while the
bank is ready, a read goes out in no cycle with an update, and returns in the next cycle the
quantity that the updates accepted before it make; a request that is held is served once, by the
first cycle without an update, and is not acknowledged as long as there is none; and the book and
its top are those of the same updates with any other host. -/
theorem host_reads_linearizable (b : BookBank wselW qtyW) (i : BookIn wselW qtyW)
    (inp : ℕ → BookIn wselW qtyW) :
    (∀ n, (b.afterReset i inp n).ready = true → b.issues i inp n = true →
      (inp n).updValid = false ∧ b.acks i inp (n + 1) = true ∧
        b.readData i inp (n + 1) = quantity (b.accepted i inp n) (inp n).hostRdAddr.msb
          ((inp n).hostRdAddr.setWidth (wselW + 5))) ∧
      (∀ n, b.acks i inp n = true → ∃ m, n = m + 1 ∧ b.issues i inp m = true) ∧
      (∀ a, (b.afterReset i inp a).ready = true → Raised b i inp a → HeldUntilAck b i inp a →
        (∀ k, FirstGap inp a k → Served b i inp a k) ∧
          ((∀ n, a ≤ n → (inp n).updValid = true) → ∀ n, a ≤ n → b.acks i inp n = false)) ∧
      ∀ i' inp', (∀ n, SameUpdate (inp n) (inp' n)) →
        ∀ n, SameBook (b.afterReset i inp n) (b.afterReset i' inp' n) := by
  refine ⟨fun n hready hgo => ?_, fun n hack => ?_, fun a hready hraised hheld => ⟨?_, ?_⟩, ?_⟩
  · exact ⟨updValid_of_issues hready hgo, hgo, readData_succ hready hgo⟩
  · cases n with
    | zero => cases hack
    | succ m => exact ⟨m, rfl, hack⟩
  · exact fun k hgap => hraised.served hheld hready hgap
  · exact fun hbusy n hn => hraised.starves hready (fun m hm _ => hbusy m hm) n hn le_rfl
  · intro i' inp' hsame n
    have halike := alike_afterReset b i i' hsame n
    exact ⟨halike.levelQty, halike.tobValid, halike.bidPresent, halike.askPresent, halike.bestBid,
      halike.bestAsk⟩

/-- A feed without a gap, and a host that asks once the bank is ready. -/
def BookIn.flooded (k : ℕ) : BookIn 1 8 :=
  { updValid := true
    updSide := false
    updIdx := 0
    updDelta := 1
    hostRdReq := 128 ≤ k
    hostRdAddr := 0 }

open BookBank in
/-- A request that the feed leaves no cycle is never acknowledged. -/
theorem not_host_reads_acknowledged : ¬∀ (b : BookBank 1 8) (i : BookIn 1 8) (inp : ℕ → BookIn 1 8)
    (a : ℕ), (b.afterReset i inp a).ready = true → Raised b i inp a → HeldUntilAck b i inp a →
      ∃ n, a ≤ n ∧ b.acks i inp n = true := by
  intro h
  let b : BookBank 1 8 := .resting fun _ => 0
  have hready : (b.afterReset (BookIn.flooded 0) BookIn.flooded 128).ready = true :=
    (b.ready_iff _ _ 128).mpr le_rfl
  have hraised : Raised b (BookIn.flooded 0) BookIn.flooded 128 := by
    refine ⟨rfl, fun n hn => .inl ?_⟩
    obtain rfl : n = 127 := Nat.succ_injective hn.symm
    rfl
  have hheld : HeldUntilAck b (BookIn.flooded 0) BookIn.flooded 128 := fun n hn _ =>
    ⟨decide_eq_true hn, rfl⟩
  obtain ⟨n, hn, hack⟩ := h b _ _ 128 hready hraised hheld
  have hnever := hraised.starves hready (k := n) (fun _ _ _ => rfl) n hn le_rfl
  exact Bool.false_ne_true (hnever.symm.trans hack)

end Fmma
