import Fmma.Rtl.AxiMap

/-!
# Every access is answered once

What a master sees of `axi_ctrl`, from a reset on and with any timing of its own signals and of
the bank's acknowledgements.
-/

namespace Fmma

/-- A write of the target is answered with `OKAY`. -/
def AxiTarget.Writable {p : AxiParams} (d : AxiTarget p) : Prop := d.Readable ∧ d.kind ≠ .book

namespace AxiCtrl

variable {p : AxiParams} {s t : AxiCtrl p} {i : AxiIn p}

/-! ### The write channel -/

/-- The registers of the read channel are the same. -/
structure SameRead (s t : AxiCtrl p) : Prop where
  rdBusy : t.rdBusy = s.rdBusy
  rK : t.rK = s.rK
  rSym : t.rSym = s.rSym
  rI : t.rI = s.rI
  rvalid : t.rvalid = s.rvalid
  rresp : t.rresp = s.rresp
  rdata : t.rdata = s.rdata
  hostRdReq : t.hostRdReq = s.hostRdReq
  hostRdSym : t.hostRdSym = s.hostRdSym
  hostRdAddr : t.hostRdAddr = s.hostRdAddr

/-- An index is a number. -/
theorem idx_eq_iff {x : BitVec (p.idxW + 1)} {k : ℕ} (hk : k < 4) :
    x = BitVec.ofNat _ k ↔ x.toNat = k := by
  obtain ⟨-, -, -, -, hidx⟩ := p.aw_eq
  have hpow : 4 < 2 ^ (p.idxW + 1) :=
    lt_of_lt_of_le (by decide : 4 < 2 ^ 8) (Nat.pow_le_pow_right (by decide) (by omega))
  rw [← BitVec.toNat_inj, BitVec.toNat_ofNat, Nat.mod_eq_of_lt (by omega)]

/-- The registers of a symbol, and the global ones. -/
theorem lt_four_iff {x : BitVec (p.idxW + 1)} :
    x.toNat < 4 ↔ x = 0 ∨ x = 1 ∨ x = 2 ∨ x = 3 := by
  have h0 := idx_eq_iff (x := x) (k := 0) (by decide)
  have h1 := idx_eq_iff (x := x) (k := 1) (by decide)
  have h2 := idx_eq_iff (x := x) (k := 2) (by decide)
  have h3 := idx_eq_iff (x := x) (k := 3) (by decide)
  refine Iff.trans ?_ (or_congr h0 (or_congr h1 (or_congr h2 h3))).symm
  omega

theorem lt_three_iff {x : BitVec (p.idxW + 1)} : x.toNat < 3 ↔ x = 0 ∨ x = 1 ∨ x = 2 := by
  have h0 := idx_eq_iff (x := x) (k := 0) (by decide)
  have h1 := idx_eq_iff (x := x) (k := 1) (by decide)
  have h2 := idx_eq_iff (x := x) (k := 2) (by decide)
  refine Iff.trans ?_ (or_congr h0 (or_congr h1 h2)).symm
  omega

theorem write_bvalid (s : AxiCtrl p) (d : AxiTarget p) (w : BitVec 32) :
    (s.write d w).bvalid = true := by
  simp only [write]
  split
  · split_ifs <;> rfl
  · split_ifs <;> rfl
  all_goals rfl

/-- A write leaves the registers of the read channel alone. -/
theorem sameRead_write (s : AxiCtrl p) (d : AxiTarget p) (w : BitVec 32) :
    SameRead s (s.write d w) := by
  simp only [write]
  split
  · split_ifs <;> exact ⟨rfl, rfl, rfl, rfl, rfl, rfl, rfl, rfl, rfl, rfl⟩
  · split_ifs <;> exact ⟨rfl, rfl, rfl, rfl, rfl, rfl, rfl, rfl, rfl, rfl⟩
  all_goals exact ⟨rfl, rfl, rfl, rfl, rfl, rfl, rfl, rfl, rfl, rfl⟩

/-- What a write answers. -/
theorem write_bresp (s : AxiCtrl p) (d : AxiTarget p) (w : BitVec 32) :
    (s.write d w).bresp = okay ∧ d.Writable ∨ (s.write d w).bresp = slverr ∧ ¬d.Writable := by
  obtain ⟨kind, sym, idx⟩ := d
  cases kind with
  | none => exact .inr ⟨rfl, And.left⟩
  | book => exact .inr ⟨rfl, fun h => h.2 rfl⟩
  | lut => exact .inl ⟨rfl, trivial, AxiKind.noConfusion⟩
  | greg =>
    have hw : (⟨.greg, sym, idx⟩ : AxiTarget p).Writable ↔ idx = 0 ∨ idx = 1 ∨ idx = 2 :=
      (and_iff_left AxiKind.noConfusion).trans lt_three_iff
    rw [hw]
    simp only [write]
    split_ifs with hc1 hc02
    · exact .inl ⟨rfl, .inr (.inl hc1)⟩
    · exact .inl ⟨rfl, hc02.imp_right .inr⟩
    · refine .inr ⟨rfl, ?_⟩
      rintro (hc0 | hc | hc2)
      · exact hc02 (.inl hc0)
      · exact hc1 hc
      · exact hc02 (.inr hc2)
  | sreg =>
    have hw : (⟨.sreg, sym, idx⟩ : AxiTarget p).Writable ↔
        idx = 0 ∨ idx = 1 ∨ idx = 2 ∨ idx = 3 :=
      (and_iff_left AxiKind.noConfusion).trans lt_four_iff
    rw [hw]
    simp only [write]
    split_ifs with hc0 hc1 hc2 hc3
    · exact .inl ⟨rfl, .inl hc0⟩
    · exact .inl ⟨rfl, .inr (.inl hc1)⟩
    · exact .inl ⟨rfl, .inr (.inr (.inl hc2))⟩
    · exact .inl ⟨rfl, .inr (.inr (.inr hc3))⟩
    · exact .inr ⟨rfl, not_or.mpr ⟨hc0, not_or.mpr ⟨hc1, not_or.mpr ⟨hc2, hc3⟩⟩⟩⟩

/-- The response of a read of a register. -/
theorem readReg_spec (s : AxiCtrl p) (i : AxiIn p) (hbook : s.rK ≠ .book) :
    (s.readReg i).2 = okay ∧ (⟨s.rK, s.rSym, s.rI⟩ : AxiTarget p).Readable ∨
      (s.readReg i).2 = slverr ∧ ¬(⟨s.rK, s.rSym, s.rI⟩ : AxiTarget p).Readable := by
  cases hk : s.rK with
  | none => simp only [readReg, hk, AxiTarget.Readable, not_false_eq_true, and_true, or_true]
  | book => exact absurd hk hbook
  | lut => simp only [readReg, hk, AxiTarget.Readable, and_true, true_or]
  | greg =>
    simp only [readReg, hk, AxiTarget.Readable, lt_three_iff]
    split_ifs with hc0 hc1 hc2
    · exact .inl ⟨rfl, .inl hc0⟩
    · exact .inl ⟨rfl, .inr (.inl hc1)⟩
    · exact .inl ⟨rfl, .inr (.inr hc2)⟩
    · exact .inr ⟨rfl, not_or.mpr ⟨hc0, not_or.mpr ⟨hc1, hc2⟩⟩⟩
  | sreg =>
    simp only [readReg, hk, AxiTarget.Readable, lt_four_iff]
    split_ifs with hc0 hc1 hc2 hc3
    · exact .inl ⟨rfl, .inl hc0⟩
    · exact .inl ⟨rfl, .inr (.inl hc1)⟩
    · exact .inl ⟨rfl, .inr (.inr (.inl hc2))⟩
    · exact .inl ⟨rfl, .inr (.inr (.inr hc3))⟩
    · exact .inr ⟨rfl, not_or.mpr ⟨hc0, not_or.mpr ⟨hc1, not_or.mpr ⟨hc2, hc3⟩⟩⟩⟩

/-! ### One edge -/

theorem readEdge_write (rst : Bool) (s : AxiCtrl p) (i : AxiIn p) (t : AxiCtrl p) :
    (readEdge rst s i t).bvalid = t.bvalid ∧ (readEdge rst s i t).bresp = t.bresp := by
  simp only [readEdge]
  split_ifs <;> exact ⟨rfl, rfl⟩

/-- The write channel leaves the registers of the read channel alone. -/
theorem sameRead_writeEdge (s : AxiCtrl p) (i : AxiIn p) : SameRead s (writeEdge false s i) := by
  have hwrite : ∀ t : AxiCtrl p, SameRead s t →
      SameRead s (t.write (p.decode i.awaddr) i.wdata) := by
    intro t ht
    have hw := sameRead_write t (p.decode i.awaddr) i.wdata
    exact ⟨hw.rdBusy.trans ht.rdBusy, hw.rK.trans ht.rK, hw.rSym.trans ht.rSym,
      hw.rI.trans ht.rI, hw.rvalid.trans ht.rvalid, hw.rresp.trans ht.rresp,
      hw.rdata.trans ht.rdata, hw.hostRdReq.trans ht.hostRdReq,
      hw.hostRdSym.trans ht.hostRdSym, hw.hostRdAddr.trans ht.hostRdAddr⟩
  have htaken : ∀ t : AxiCtrl p, SameRead s t →
      SameRead s (if s.wrFire i then t.write (p.decode i.awaddr) i.wdata else t) := by
    intro t ht
    split_ifs
    · exact hwrite t ht
    · exact ht
  simp only [writeEdge, Bool.false_eq_true, if_false]
  refine htaken _ ?_
  split_ifs <;> exact ⟨rfl, rfl, rfl, rfl, rfl, rfl, rfl, rfl, rfl, rfl⟩

/-- An edge accepts a write, and starts its response. -/
structure Writes (s : AxiCtrl p) (i : AxiIn p) (c : AxiCtrl p) : Prop where
  idle : s.bvalid = false
  bvalid : c.bvalid = true
  bresp : c.bresp = okay ∧ (p.decode i.awaddr).Writable ∨
    c.bresp = slverr ∧ ¬(p.decode i.awaddr).Writable

/-- **The write channel at an edge.** -/
theorem edge_writes (h : s.wrFire i = true) : Writes s i (s.edge false i) := by
  have hidle : s.bvalid = false := by
    have hb := (Bool.and_eq_true_iff.mp h).2
    simpa using hb
  obtain ⟨hbvalid, hbresp⟩ := readEdge_write false s i (writeEdge false s i)
  have hwrite : ∃ t : AxiCtrl p, writeEdge false s i = t.write (p.decode i.awaddr) i.wdata := by
    simp only [writeEdge, h, Bool.false_eq_true, if_false, if_true]
    exact ⟨_, rfl⟩
  obtain ⟨t, ht⟩ := hwrite
  have hvalid := write_bvalid t (p.decode i.awaddr) i.wdata
  have hresp := write_bresp t (p.decode i.awaddr) i.wdata
  refine ⟨hidle, ?_, ?_⟩
  · change (readEdge false s i (writeEdge false s i)).bvalid = true
    rw [hbvalid, ht, hvalid]
  · change (readEdge false s i (writeEdge false s i)).bresp = _ ∧ _ ∨
      (readEdge false s i (writeEdge false s i)).bresp = _ ∧ _
    rw [hbresp, ht]
    exact hresp

theorem edge_writes_not (h : s.wrFire i = false) :
    (s.edge false i).bvalid = (s.bvalid && !i.bready) ∧ (s.edge false i).bresp = s.bresp := by
  obtain ⟨hbvalid, hbresp⟩ := readEdge_write false s i (writeEdge false s i)
  change (readEdge false s i (writeEdge false s i)).bvalid = _ ∧
    (readEdge false s i (writeEdge false s i)).bresp = _
  rw [hbvalid, hbresp]
  simp only [writeEdge, h, Bool.false_eq_true, if_false]
  cases s.bvalid <;> cases i.bready <;> simp

/-- An edge accepts a read. -/
structure ReadStarts (s : AxiCtrl p) (i : AxiIn p) (c : AxiCtrl p) : Prop where
  fires : s.arFire i = true
  rdBusy : c.rdBusy = true
  rvalid : c.rvalid = (s.rvalid && !i.rready)
  target : (⟨c.rK, c.rSym, c.rI⟩ : AxiTarget p) = p.decode i.araddr
  request : (p.decode i.araddr).kind = .book →
    c.hostRdReq = true ∧ c.hostRdSym = c.rSym ∧ c.hostRdAddr = c.rI
  noRequest : (p.decode i.araddr).kind ≠ .book → c.hostRdReq = s.hostRdReq

/-- An edge starts the response to the read under way. -/
structure ReadAnswers (s : AxiCtrl p) (i : AxiIn p) (c : AxiCtrl p) : Prop where
  fires : s.arFire i = false
  busy : s.rdBusy = true
  acked : s.rK = .book → i.hostRdAck = true
  rdBusy : c.rdBusy = false
  rvalid : c.rvalid = true
  rresp : c.rresp = okay ∧ (⟨s.rK, s.rSym, s.rI⟩ : AxiTarget p).Readable ∨
    c.rresp = slverr ∧ ¬(⟨s.rK, s.rSym, s.rI⟩ : AxiTarget p).Readable
  request : s.rK = .book → c.hostRdReq = false
  noRequest : s.rK ≠ .book → c.hostRdReq = s.hostRdReq

/-- An edge that does neither. -/
structure ReadWaits (s : AxiCtrl p) (i : AxiIn p) (c : AxiCtrl p) : Prop where
  fires : s.arFire i = false
  waits : s.rdBusy = true → s.rK = .book ∧ i.hostRdAck = false
  rdBusy : c.rdBusy = s.rdBusy
  rK : c.rK = s.rK
  rSym : c.rSym = s.rSym
  rI : c.rI = s.rI
  rvalid : c.rvalid = (s.rvalid && !i.rready)
  rresp : c.rresp = s.rresp
  rdata : c.rdata = s.rdata
  hostRdReq : c.hostRdReq = s.hostRdReq
  hostRdSym : c.hostRdSym = s.hostRdSym
  hostRdAddr : c.hostRdAddr = s.hostRdAddr

/-- **The read channel at an edge.** -/
theorem read_cases (s : AxiCtrl p) (i : AxiIn p) :
    ReadStarts s i (s.edge false i) ∨ ReadAnswers s i (s.edge false i) ∨
      ReadWaits s i (s.edge false i) := by
  have hsame := sameRead_writeEdge s i
  have hedge : s.edge false i = readEdge false s i (writeEdge false s i) := rfl
  have htaken : ∃ t : AxiCtrl p, SameRead { s with rvalid := s.rvalid && !i.rready } t ∧
      (if (s.rvalid && i.rready) = true then { writeEdge false s i with rvalid := false }
        else writeEdge false s i) = t := by
    refine ⟨_, ?_, rfl⟩
    obtain ⟨h1, h2, h3, h4, h5, h6, h7, h8, h9, h10⟩ := hsame
    split_ifs with htake
    · obtain ⟨hv, hr⟩ := Bool.and_eq_true_iff.mp htake
      refine ⟨h1, h2, h3, h4, ?_, h6, h7, h8, h9, h10⟩
      simp only [hv, hr, Bool.not_true, Bool.and_false]
    · refine ⟨h1, h2, h3, h4, ?_, h6, h7, h8, h9, h10⟩
      rw [h5]
      cases hv : s.rvalid <;> cases hr : i.rready <;> simp [hv, hr] at htake ⊢
  obtain ⟨t, ht, hteq⟩ := htaken
  rw [hedge]
  simp only [readEdge, Bool.false_eq_true, if_false, hteq]
  cases hfire : s.arFire i with
  | true =>
    refine .inl ?_
    rw [if_pos rfl]
    by_cases hbook : (p.decode i.araddr).kind = .book
    · rw [if_pos hbook]
      exact ⟨hfire, rfl, ht.rvalid, rfl, fun _ => ⟨rfl, rfl, rfl⟩, fun hne => absurd hbook hne⟩
    · rw [if_neg hbook]
      exact ⟨hfire, rfl, ht.rvalid, rfl, fun hb => absurd hb hbook, fun _ => ht.hostRdReq⟩
  | false =>
    refine .inr ?_
    rw [if_neg Bool.false_ne_true]
    cases hbusy : s.rdBusy with
    | false =>
      rw [if_neg Bool.false_ne_true]
      exact .inr ⟨hfire, fun hb => absurd (hbusy.symm.trans hb) (by decide), ht.rdBusy, ht.rK,
        ht.rSym, ht.rI, ht.rvalid, ht.rresp, ht.rdata, ht.hostRdReq, ht.hostRdSym, ht.hostRdAddr⟩
    | true =>
      rw [if_pos rfl]
      by_cases hbook : s.rK = .book
      · rw [if_pos hbook]
        cases hack : i.hostRdAck with
        | true =>
          rw [if_pos rfl]
          refine .inl ⟨hfire, hbusy, fun _ => hack, rfl, rfl, .inl ⟨rfl, ?_⟩, fun _ => rfl,
            fun hne => absurd hbook hne⟩
          rw [hbook]
          trivial
        | false =>
          rw [if_neg Bool.false_ne_true]
          exact .inr ⟨hfire, fun _ => ⟨hbook, hack⟩, ht.rdBusy, ht.rK, ht.rSym, ht.rI, ht.rvalid,
            ht.rresp, ht.rdata, ht.hostRdReq, ht.hostRdSym, ht.hostRdAddr⟩
      · rw [if_neg hbook]
        exact .inl ⟨hfire, hbusy, fun hb => absurd hb hbook, rfl, rfl, readReg_spec s i hbook,
          fun hb => absurd hb hbook,
          fun _ => ht.hostRdReq⟩

end AxiCtrl

/-! ### What has gone over the bus -/

/-- `axi_ctrl` with what has gone over its channels since the reset, the latest first: the
addresses accepted, the responses started, how many of them the master has taken, and the reads
asked of the banks. -/
structure AxiBus (p : AxiParams) where
  ctrl : AxiCtrl p
  writes : List (BitVec p.aw)
  writeResps : List (BitVec 2)
  writesTaken : ℕ
  reads : List (BitVec p.aw)
  readResps : List (BitVec 2)
  readsTaken : ℕ
  requests : List (BitVec p.symW × BitVec (p.idxW + 1))

namespace AxiBus

variable {p : AxiParams}

/-- An edge with the reset: whatever the registers were, nothing has gone over the bus yet. -/
def reset (c : AxiCtrl p) (i : AxiIn p) : AxiBus p where
  ctrl := c.edge true i
  writes := []
  writeResps := []
  writesTaken := 0
  reads := []
  readResps := []
  readsTaken := 0
  requests := []

/-- An edge without: a response is started where the channel is valid afterwards and its response
is not the one waiting before; a bank is asked where `host_rd_req` rises. -/
def step (b : AxiBus p) (i : AxiIn p) : AxiBus p :=
  let c := b.ctrl.edge false i
  { ctrl := c
    writes := if b.ctrl.wrFire i then i.awaddr :: b.writes else b.writes
    writeResps :=
      if c.bvalid && !(b.ctrl.bvalid && !i.bready) then c.bresp :: b.writeResps else b.writeResps
    writesTaken := b.writesTaken + (b.ctrl.bvalid && i.bready).toNat
    reads := if b.ctrl.arFire i then i.araddr :: b.reads else b.reads
    readResps :=
      if c.rvalid && !(b.ctrl.rvalid && !i.rready) then c.rresp :: b.readResps else b.readResps
    readsTaken := b.readsTaken + (b.ctrl.rvalid && i.rready).toNat
    requests :=
      if c.hostRdReq && !b.ctrl.hostRdReq then (c.hostRdSym, c.hostRdAddr) :: b.requests
      else b.requests }

/-- The response to a write: `SLVERR` where the address is not mapped or is in the book. -/
def WriteResp (p : AxiParams) (r : BitVec 2) (a : BitVec p.aw) : Prop :=
  r = slverr ∧ (¬p.Mapped (2 ^ p.idxW) a.toNat ∨ p.BookWord (2 ^ p.idxW) a.toNat) ∨
    r = okay ∧ ¬(¬p.Mapped (2 ^ p.idxW) a.toNat ∨ p.BookWord (2 ^ p.idxW) a.toNat)

/-- The response to a read: `SLVERR` where the address is not mapped. -/
def ReadResp (p : AxiParams) (r : BitVec 2) (a : BitVec p.aw) : Prop :=
  r = slverr ∧ ¬p.Mapped (2 ^ p.idxW) a.toNat ∨ r = okay ∧ p.Mapped (2 ^ p.idxW) a.toNat

/-- The read of a book, as the bank sees it. -/
def bookRead (a : BitVec p.aw) : Option (BitVec p.symW × BitVec (p.idxW + 1)) :=
  if (p.decode a).kind = .book then some ((p.decode a).sym, (p.decode a).idx) else none

/-- **What a master may rely on.** -/
structure Answers (b : AxiBus p) : Prop where
  /-- Every write has its response, the one its address calls for. -/
  writes : List.Forall₂ (WriteResp p) b.writeResps b.writes
  /-- At most one response waits to be taken. -/
  writesTaken : b.writeResps.length = b.writesTaken + b.ctrl.bvalid.toNat
  /-- So has every read, but for the one under way. -/
  reads : List.Forall₂ (ReadResp p) b.readResps (b.reads.drop b.ctrl.rdBusy.toNat)
  readsUnderWay : b.reads.length = b.readResps.length + b.ctrl.rdBusy.toNat
  /-- At most one read is under way or waits to be taken. -/
  readsTaken : b.readResps.length = b.readsTaken + b.ctrl.rvalid.toNat
  oneRead : b.ctrl.rdBusy = true → b.ctrl.rvalid = false
  /-- A response stays as it is until it is taken. -/
  writeHeld : ∀ i : AxiIn p, b.ctrl.bvalid = true → i.bready = false →
    (b.step i).ctrl.bvalid = true ∧ (b.step i).ctrl.bresp = b.ctrl.bresp
  readHeld : ∀ i : AxiIn p, b.ctrl.rvalid = true → i.rready = false →
    (b.step i).ctrl.rvalid = true ∧ (b.step i).ctrl.rresp = b.ctrl.rresp ∧
      (b.step i).ctrl.rdata = b.ctrl.rdata
  /-- Nothing is accepted before it is. -/
  writeWaits : ∀ i : AxiIn p, b.ctrl.bvalid = true → b.ctrl.wrFire i = false
  readWaits : ∀ i : AxiIn p, (b.ctrl.rdBusy = true ∨ b.ctrl.rvalid = true) →
    b.ctrl.arFire i = false
  /-- The banks are asked once for every read of a book, and for what its address says. -/
  requests : b.requests = b.reads.filterMap bookRead
  /-- They are asked until they acknowledge. -/
  requestHeld : ∀ i : AxiIn p, b.ctrl.hostRdReq = true → i.hostRdAck = false →
    (b.step i).ctrl.hostRdReq = true ∧ (b.step i).ctrl.hostRdSym = b.ctrl.hostRdSym ∧
      (b.step i).ctrl.hostRdAddr = b.ctrl.hostRdAddr
  /-- A read under way is answered by the next edge, one of a book by the acknowledgement. -/
  readAnswered : ∀ i : AxiIn p, b.ctrl.rdBusy = true →
    (b.ctrl.hostRdReq = true → i.hostRdAck = true) → (b.step i).ctrl.rvalid = true

/-! ### The invariants of the two channels -/

variable {b : AxiBus p}

/-- What holds of the write channel between two edges. -/
structure WriteInv (b : AxiBus p) : Prop where
  resps : List.Forall₂ (WriteResp p) b.writeResps b.writes
  taken : b.writeResps.length = b.writesTaken + b.ctrl.bvalid.toNat

/-- What holds of the read channel between two edges. -/
structure ReadInv (b : AxiBus p) : Prop where
  resps : List.Forall₂ (ReadResp p) b.readResps (b.reads.drop b.ctrl.rdBusy.toNat)
  underWay : b.reads.length = b.readResps.length + b.ctrl.rdBusy.toNat
  taken : b.readResps.length = b.readsTaken + b.ctrl.rvalid.toNat
  one : b.ctrl.rdBusy = true → b.ctrl.rvalid = false
  /-- The read under way is the last one accepted. -/
  target : b.ctrl.rdBusy = true →
    ∀ a ∈ b.reads.head?, (⟨b.ctrl.rK, b.ctrl.rSym, b.ctrl.rI⟩ : AxiTarget p) = p.decode a
  requests : b.requests = b.reads.filterMap bookRead
  asking : b.ctrl.hostRdReq = true ↔ b.ctrl.rdBusy = true ∧ b.ctrl.rK = .book

theorem writeInv_reset (c : AxiCtrl p) (i : AxiIn p) : (reset c i).WriteInv := ⟨.nil, rfl⟩

theorem readInv_reset (c : AxiCtrl p) (i : AxiIn p) : (reset c i).ReadInv where
  resps := .nil
  underWay := rfl
  taken := rfl
  one := fun h => absurd h Bool.false_ne_true
  target := fun h => absurd h Bool.false_ne_true
  requests := rfl
  asking := ⟨fun h => absurd h Bool.false_ne_true, fun h => absurd h.1 Bool.false_ne_true⟩

/-- A target is writable where the address is in the map but not in the book. -/
theorem writable_iff (a : BitVec p.aw) : (p.decode a).Writable ↔
    ¬(¬p.Mapped (2 ^ p.idxW) a.toNat ∨ p.BookWord (2 ^ p.idxW) a.toNat) := by
  rw [not_or, not_not, AxiParams.mapped_iff, AxiParams.bookWord_iff]
  exact Iff.rfl

theorem WriteInv.step (h : b.WriteInv) (i : AxiIn p) : (b.step i).WriteInv := by
  cases hfire : b.ctrl.wrFire i with
  | true =>
    obtain ⟨hidle, hvalid, hresp⟩ := AxiCtrl.edge_writes hfire
    have hresps : (b.step i).writeResps = (b.ctrl.edge false i).bresp :: b.writeResps := by
      simp only [AxiBus.step, hvalid, hidle, Bool.false_and, Bool.not_false, Bool.and_self, if_true]
    have hwrites : (b.step i).writes = i.awaddr :: b.writes := by
      simp only [AxiBus.step, hfire, if_true]
    have htaken : (b.step i).writesTaken = b.writesTaken := by
      simp only [AxiBus.step, hidle, Bool.false_and, Bool.toNat_false, Nat.add_zero]
    refine ⟨?_, ?_⟩
    · rw [hresps, hwrites]
      refine .cons ?_ h.resps
      rw [WriteResp, ← writable_iff]
      rcases hresp with ⟨hr, hw⟩ | ⟨hr, hw⟩
      · exact .inr ⟨hr, hw⟩
      · exact .inl ⟨hr, not_not.mp (mt (writable_iff _).mpr hw)⟩
    · have hnow : (b.step i).ctrl.bvalid = true := hvalid
      have hlen := h.taken
      rw [hidle] at hlen
      rw [hresps, htaken, hnow, List.length_cons, hlen]
      rfl
  | false =>
    obtain ⟨hvalid, -⟩ := AxiCtrl.edge_writes_not hfire
    have hresps : (b.step i).writeResps = b.writeResps := by
      simp only [AxiBus.step, hvalid, Bool.and_not_self, Bool.false_eq_true, if_false]
    have hwrites : (b.step i).writes = b.writes := by
      simp only [AxiBus.step, hfire, Bool.false_eq_true, if_false]
    refine ⟨?_, ?_⟩
    · rw [hresps, hwrites]
      exact h.resps
    · have hnow : (b.step i).ctrl.bvalid = (b.ctrl.bvalid && !i.bready) := hvalid
      have htaken : (b.step i).writesTaken =
        b.writesTaken + (b.ctrl.bvalid && i.bready).toNat := rfl
      rw [hresps, hnow, htaken, h.taken]
      cases b.ctrl.bvalid <;> cases i.bready <;> rfl

theorem bookRead_of_book {a : BitVec p.aw} (h : (p.decode a).kind = .book) :
    bookRead a = some ((p.decode a).sym, (p.decode a).idx) := if_pos h

theorem bookRead_of_ne {a : BitVec p.aw} (h : (p.decode a).kind ≠ .book) :
    bookRead a = none := if_neg h

/-- The edge that accepts a read. -/
theorem ReadInv.starts (h : b.ReadInv) {i : AxiIn p}
    (hs : AxiCtrl.ReadStarts b.ctrl i (b.ctrl.edge false i)) : (b.step i).ReadInv := by
  obtain ⟨hfire, hbusy, hvalid, htarget, hbook, hnot⟩ := hs
  have hready := (Bool.and_eq_true_iff.mp hfire).2
  obtain ⟨hb, hv⟩ : b.ctrl.rdBusy = false ∧ b.ctrl.rvalid = false := by
    simpa [AxiCtrl.arready] using hready
  have hreq : b.ctrl.hostRdReq = false := by
    have hask := mt h.asking.mp
    simp only [hb, Bool.false_eq_true, false_and, not_false_eq_true, true_implies,
      Bool.not_eq_true] at hask
    exact hask
  rw [hv, Bool.false_and] at hvalid
  have hreads : (b.step i).reads = i.araddr :: b.reads := by
    simp only [AxiBus.step, hfire, if_true]
  have hresps : (b.step i).readResps = b.readResps := by
    simp only [AxiBus.step, hvalid, Bool.false_and, Bool.false_eq_true, if_false]
  have htaken : (b.step i).readsTaken = b.readsTaken := by
    simp only [AxiBus.step, hv, Bool.false_and, Bool.toNat_false, Nat.add_zero]
  have hbusy' : (b.step i).ctrl.rdBusy = true := hbusy
  have hvalid' : (b.step i).ctrl.rvalid = false := hvalid
  have hunder := h.underWay
  have hold := h.resps
  have hlen := h.taken
  rw [hb] at hunder hold
  rw [hv] at hlen
  have hkind : (b.step i).ctrl.rK = (p.decode i.araddr).kind := congrArg AxiTarget.kind htarget
  refine ⟨?_, ?_, ?_, fun _ => hvalid', ?_, ?_, ?_⟩
  · rw [hresps, hreads, hbusy']
    exact hold
  · rw [hresps, hreads, hbusy', List.length_cons, hunder]
    rfl
  · rw [hresps, htaken, hvalid', hlen]
  · intro _ a ha
    rw [hreads, List.head?_cons, Option.mem_some_iff] at ha
    rw [← ha]
    exact htarget
  · rw [hreads]
    by_cases hk : (p.decode i.araddr).kind = .book
    · obtain ⟨hrise, hsym, hidx⟩ := hbook hk
      have hpair : ((b.ctrl.edge false i).hostRdSym, (b.ctrl.edge false i).hostRdAddr) =
          ((p.decode i.araddr).sym, (p.decode i.araddr).idx) := by
        rw [hsym, hidx, ← htarget]
      rw [List.filterMap_cons_some (bookRead_of_book hk), ← h.requests, ← hpair]
      simp only [AxiBus.step, hrise, hreq, Bool.not_false, Bool.and_self, if_true]
    · rw [List.filterMap_cons_none (bookRead_of_ne hk), ← h.requests]
      simp only [AxiBus.step, hnot hk, hreq, Bool.false_and, Bool.false_eq_true, if_false]
  · rw [hbusy', hkind]
    by_cases hk : (p.decode i.araddr).kind = .book
    · exact iff_of_true (hbook hk).1 ⟨rfl, hk⟩
    · refine iff_of_false ?_ fun hc => hk hc.2
      have hlow : (b.step i).ctrl.hostRdReq = false := (hnot hk).trans hreq
      rw [hlow]
      exact Bool.false_ne_true

/-- The edge that starts the response to a read. -/
theorem ReadInv.answers (h : b.ReadInv) {i : AxiIn p}
    (hs : AxiCtrl.ReadAnswers b.ctrl i (b.ctrl.edge false i)) : (b.step i).ReadInv := by
  obtain ⟨hfire, hb, -, hbusy, hvalid, hresp, hbook, hnot⟩ := hs
  have hv : b.ctrl.rvalid = false := h.one hb
  have hreads : (b.step i).reads = b.reads := by
    simp only [AxiBus.step, hfire, Bool.false_eq_true, if_false]
  have hresps : (b.step i).readResps = (b.ctrl.edge false i).rresp :: b.readResps := by
    simp only [AxiBus.step, hvalid, hv, Bool.false_and, Bool.not_false, Bool.and_self, if_true]
  have htaken : (b.step i).readsTaken = b.readsTaken := by
    simp only [AxiBus.step, hv, Bool.false_and, Bool.toNat_false, Nat.add_zero]
  have hbusy' : (b.step i).ctrl.rdBusy = false := hbusy
  have hvalid' : (b.step i).ctrl.rvalid = true := hvalid
  have hlow : (b.step i).ctrl.hostRdReq = false := by
    by_cases hk : b.ctrl.rK = .book
    · exact hbook hk
    · refine (hnot hk).trans ?_
      have hask := mt h.asking.mp fun hc => hk hc.2
      rwa [Bool.not_eq_true] at hask
  have hunder := h.underWay
  have hold := h.resps
  have hlen := h.taken
  rw [hb] at hunder hold
  rw [hv] at hlen
  obtain ⟨a, rest, hlist⟩ : ∃ a rest, b.reads = a :: rest :=
    List.exists_cons_of_length_eq_add_one hunder
  rw [hlist] at hold
  have hdecode : (⟨b.ctrl.rK, b.ctrl.rSym, b.ctrl.rI⟩ : AxiTarget p) = p.decode a := by
    refine h.target hb a ?_
    rw [hlist]
    rfl
  refine ⟨?_, ?_, ?_, fun hc => ?_, fun hc => ?_, ?_, ?_⟩
  · rw [hresps, hreads, hbusy', hlist]
    refine .cons ?_ hold
    rw [ReadResp, AxiParams.mapped_iff, ← hdecode]
    exact hresp.symm
  · rw [hresps, hreads, hbusy', hunder]
    rfl
  · rw [hresps, htaken, hvalid', List.length_cons, hlen]
    rfl
  · exact absurd (hbusy'.symm.trans hc) Bool.false_ne_true
  · exact absurd (hbusy'.symm.trans hc) Bool.false_ne_true
  · have hsame : (b.step i).requests = b.requests := by
      have hlow' : (b.ctrl.edge false i).hostRdReq = false := hlow
      simp only [AxiBus.step, hlow', Bool.false_and, Bool.false_eq_true, if_false]
    rw [hsame, hreads]
    exact h.requests
  · rw [hlow, hbusy']
    exact iff_of_false Bool.false_ne_true fun hc => Bool.false_ne_true hc.1

/-- The edge that does neither. -/
theorem ReadInv.waits (h : b.ReadInv) {i : AxiIn p}
    (hs : AxiCtrl.ReadWaits b.ctrl i (b.ctrl.edge false i)) : (b.step i).ReadInv := by
  have hreads : (b.step i).reads = b.reads := by
    simp only [AxiBus.step, hs.fires, Bool.false_eq_true, if_false]
  have hresps : (b.step i).readResps = b.readResps := by
    simp only [AxiBus.step, hs.rvalid, Bool.and_not_self, Bool.false_eq_true, if_false]
  have hsame : (b.step i).requests = b.requests := by
    simp only [AxiBus.step, hs.hostRdReq, Bool.and_not_self, Bool.false_eq_true, if_false]
  have hbusy : (b.step i).ctrl.rdBusy = b.ctrl.rdBusy := hs.rdBusy
  have hvalid : (b.step i).ctrl.rvalid = (b.ctrl.rvalid && !i.rready) := hs.rvalid
  have hk : (b.step i).ctrl.rK = b.ctrl.rK := hs.rK
  have hreq : (b.step i).ctrl.hostRdReq = b.ctrl.hostRdReq := hs.hostRdReq
  have htarget : (⟨(b.step i).ctrl.rK, (b.step i).ctrl.rSym, (b.step i).ctrl.rI⟩ : AxiTarget p) =
      ⟨b.ctrl.rK, b.ctrl.rSym, b.ctrl.rI⟩ := by
    have hsym : (b.step i).ctrl.rSym = b.ctrl.rSym := hs.rSym
    have hidx : (b.step i).ctrl.rI = b.ctrl.rI := hs.rI
    rw [hk, hsym, hidx]
  refine ⟨?_, ?_, ?_, ?_, ?_, ?_, ?_⟩
  · rw [hresps, hreads, hbusy]
    exact h.resps
  · rw [hresps, hreads, hbusy]
    exact h.underWay
  · have htaken : (b.step i).readsTaken =
        b.readsTaken + (b.ctrl.rvalid && i.rready).toNat := rfl
    rw [hresps, hvalid, htaken, h.taken]
    cases b.ctrl.rvalid <;> cases i.rready <;> rfl
  · intro hc
    rw [hbusy] at hc
    rw [hvalid, h.one hc, Bool.false_and]
  · intro hc a ha
    rw [hbusy] at hc
    rw [hreads] at ha
    rw [htarget]
    exact h.target hc a ha
  · rw [hsame, hreads]
    exact h.requests
  · rw [hreq, hbusy, hk]
    exact h.asking

theorem ReadInv.step (h : b.ReadInv) (i : AxiIn p) : (b.step i).ReadInv := by
  rcases AxiCtrl.read_cases b.ctrl i with hs | hs | hs
  · exact h.starts hs
  · exact h.answers hs
  · exact h.waits hs

/-! ### Every access is answered once -/

/-- What the invariants promise a master. -/
theorem Answers.of_inv (hw : b.WriteInv) (hr : b.ReadInv) : b.Answers where
  writes := hw.resps
  writesTaken := hw.taken
  reads := hr.resps
  readsUnderWay := hr.underWay
  readsTaken := hr.taken
  oneRead := hr.one
  writeHeld := by
    intro i hvalid hready
    have hfire : b.ctrl.wrFire i = false := by
      simp only [AxiCtrl.wrFire, hvalid, Bool.not_true, Bool.and_false]
    obtain ⟨hv, hresp⟩ := AxiCtrl.edge_writes_not hfire
    rw [hvalid, hready] at hv
    exact ⟨hv, hresp⟩
  readHeld := by
    intro i hvalid hready
    rcases AxiCtrl.read_cases b.ctrl i with hs | hs | hs
    · have hrdy := (Bool.and_eq_true_iff.mp hs.fires).2
      simp [AxiCtrl.arready, hvalid] at hrdy
    · exact absurd (hvalid.symm.trans (hr.one hs.busy)) (by decide)
    · have hv := hs.rvalid
      rw [hvalid, hready] at hv
      exact ⟨hv, hs.rresp, hs.rdata⟩
  writeWaits := by
    intro i hvalid
    simp only [AxiCtrl.wrFire, hvalid, Bool.not_true, Bool.and_false]
  readWaits := by
    rintro i (hbusy | hvalid)
    · simp only [AxiCtrl.arFire, AxiCtrl.arready, hbusy, Bool.not_true, Bool.false_and,
        Bool.and_false]
    · simp only [AxiCtrl.arFire, AxiCtrl.arready, hvalid, Bool.not_true, Bool.and_false]
  requests := hr.requests
  requestHeld := by
    intro i hreq hack
    obtain ⟨hbusy, hbook⟩ := hr.asking.mp hreq
    rcases AxiCtrl.read_cases b.ctrl i with hs | hs | hs
    · have hrdy := (Bool.and_eq_true_iff.mp hs.fires).2
      simp [AxiCtrl.arready, hbusy] at hrdy
    · exact absurd (hack.symm.trans (hs.acked hbook)) Bool.false_ne_true
    · exact ⟨hs.hostRdReq.trans hreq, hs.hostRdSym, hs.hostRdAddr⟩
  readAnswered := by
    intro i hbusy hask
    rcases AxiCtrl.read_cases b.ctrl i with hs | hs | hs
    · have hrdy := (Bool.and_eq_true_iff.mp hs.fires).2
      simp [AxiCtrl.arready, hbusy] at hrdy
    · exact hs.rvalid
    · obtain ⟨hbook, hack⟩ := hs.waits hbusy
      exact absurd (hack.symm.trans (hask (hr.asking.mpr ⟨hbusy, hbook⟩))) Bool.false_ne_true

end AxiBus

/-- **Every access is answered once.** From a reset on, for any registers before it, any timing of
the master and any delays of the banks. -/
theorem axi_ctrl_answers {p : AxiParams} (c : AxiCtrl p) (i₀ : AxiIn p) (inp : ℕ → AxiIn p)
    (n : ℕ) : (Clocked.after AxiBus.step (AxiBus.reset c i₀) inp n).Answers := by
  obtain ⟨hwrite, hread⟩ := Clocked.invariant (I := fun _ (b : AxiBus p) => b.WriteInv ∧ b.ReadInv)
    ⟨AxiBus.writeInv_reset c i₀, AxiBus.readInv_reset c i₀⟩
    (fun n b hb => ⟨hb.1.step (inp n), hb.2.step (inp n)⟩) n
  exact AxiBus.Answers.of_inv hwrite hread

/-! ### A book whose levels are not a power of two -/

namespace AxiOdd

/-- Two symbols of 200 levels. -/
def params : AxiParams where
  nSym := 2
  levels := 200
  qtyW := 16
  posW := 8
  aw := 24
  two_le_nSym := by decide
  le_levels := by decide
  le_aw := by decide +kernel

theorem idxW_params : params.idxW = 8 := by decide +kernel

/-- Level 200 of the bids of the first symbol, and the acknowledgement of its bank. -/
def inputs : AxiIn params where
  awaddr := 0
  awvalid := false
  wdata := 0
  wvalid := false
  bready := true
  araddr := 0x800B20#24
  arvalid := true
  rready := true
  coreReady := true
  hostRdAck := true
  hostRdData := 0
  tobBidPresent := fun _ => false
  tobAskPresent := fun _ => false
  tobBestBid := fun _ => 0
  tobBestAsk := fun _ => 0

/-- The registers at power-up. -/
def powerUp : AxiCtrl params where
  bvalid := false
  bresp := 0
  quoteEnable := false
  hsR := fun _ => 0
  limR := fun _ => 0
  cfgSym := 0
  cfgLutWe := false
  cfgLutAddr := 0
  cfgLutData := 0
  cfgLutSwap := false
  rdBusy := false
  rK := .none
  rSym := 0
  rI := 0
  rvalid := false
  rresp := 0
  rdata := 0
  hostRdReq := false
  hostRdSym := 0
  hostRdAddr := 0

/-- The bus after the read of level 200. -/
def bus : AxiBus params :=
  Clocked.after AxiBus.step (AxiBus.reset powerUp inputs) (fun _ => inputs) 2

end AxiOdd

/-- The read of level 200 is answered with `OKAY`. -/
theorem AxiOdd.level_200 :
    bus.readResps = [okay] ∧ bus.reads.drop bus.ctrl.rdBusy.toNat = [0x800B20#24] := by
  exact ⟨rfl, rfl⟩

/-- The map has no level 200. -/
theorem AxiOdd.not_mapped : ¬params.Mapped params.levels 0x800B20 := by
  have hwindow : ∀ o, params.InWindow 0x800B20 o → o = 0xB20 := by
    rintro o ⟨s, -, ho, hval⟩
    rw [AxiParams.winW, idxW_params] at ho hval
    change 0x800B20 = 2 ^ 23 + s * 2 ^ 12 + o at hval
    omega
  rintro (hg | ⟨o, hw, hr⟩ | ⟨o, hw, k, hk, hl⟩ | ⟨o, hw, k, hk, hb⟩)
  · rw [AxiParams.GlobalReg] at hg
    omega
  · have ho := hwindow o hw
    omega
  · have ho := hwindow o hw
    omega
  · have ho := hwindow o hw
    rw [AxiParams.winW, idxW_params] at hb
    change k < 200 at hk
    omega

/-- With the levels of the parameter, the map does not say which reads are answered with
`SLVERR`. -/
theorem not_axi_ctrl_levels :
    ¬∀ (p : AxiParams) (c : AxiCtrl p) (i₀ : AxiIn p) (inp : ℕ → AxiIn p) (n : ℕ),
      let b := Clocked.after AxiBus.step (AxiBus.reset c i₀) inp n
      List.Forall₂ (fun r a => r = slverr ↔ ¬p.Mapped p.levels a.toNat) b.readResps
        (b.reads.drop b.ctrl.rdBusy.toNat) := by
  intro h
  have hread : List.Forall₂ _ AxiOdd.bus.readResps
      (AxiOdd.bus.reads.drop AxiOdd.bus.ctrl.rdBusy.toNat) :=
    h AxiOdd.params AxiOdd.powerUp AxiOdd.inputs (fun _ => AxiOdd.inputs) 2
  obtain ⟨hresp, hreads⟩ := AxiOdd.level_200
  rw [hresp, hreads] at hread
  obtain ⟨hlevel, -⟩ := List.forall₂_cons.mp hread
  exact absurd (hlevel.mpr AxiOdd.not_mapped) (by decide)

end Fmma
