import Fmma.Rtl.AxiAnswers

/-!
# No two words share an address

The words that the header of `axi_ctrl.v` puts into the address space, with their byte addresses.
`decode` takes each address back to its word, so that the addresses are different ones; any other
address of a word is refused. The number of symbols need not be a power of two.
-/

namespace Fmma

/-- A word of the address map: `ID`, `CTRL`, `STATUS`; of a symbol `TOB`, `HALF_SPREAD`,
`POS_LIMIT`, `LUT_SWAP`, the entries of `SKEW_LUT`, `BID_QTY` and `ASK_QTY`. -/
inductive MapWord (p : AxiParams)
  | global (r : Fin 3)
  | register (s : Fin p.nSym) (r : Fin 4)
  | skew (s : Fin p.nSym) (k : Fin 64)
  | bidQty (s : Fin p.nSym) (level : Fin p.levels)
  | askQty (s : Fin p.nSym) (level : Fin p.levels)

namespace MapWord

variable {p : AxiParams}

/-- The window of a symbol: the stride is `2^(IDX_W+4)` bytes. -/
def symBase (p : AxiParams) (s : ℕ) : ℕ := 2 ^ (p.aw - 1) + s * 2 ^ (p.idxW + 4)

/-- The byte address. The book starts at the half-way point of the window, the asks at the half-way
point of the book. -/
def address : MapWord p → ℕ
  | global r => 4 * r
  | register s r => symBase p s + 4 * r
  | skew s k => symBase p s + (0x100 + 4 * k)
  | bidQty s level => symBase p s + (2 ^ (p.idxW + 3) + 4 * level)
  | askQty s level => symBase p s + (2 ^ (p.idxW + 3) + 2 ^ (p.idxW + 2) + 4 * level)

/-- The kind, the symbol and the index of the word: `{side, level}` in the book. -/
def Is (d : AxiTarget p) : MapWord p → Prop
  | global r => d.kind = .greg ∧ d.idx.toNat = r
  | register s r => d.kind = .sreg ∧ d.sym.toNat = s ∧ d.idx.toNat = r
  | skew s k => d.kind = .lut ∧ d.sym.toNat = s ∧ d.idx.toNat = k
  | bidQty s level => d.kind = .book ∧ d.sym.toNat = s ∧
      d.idx = BitVec.cons false (BitVec.ofNat p.idxW level)
  | askQty s level => d.kind = .book ∧ d.sym.toNat = s ∧
      d.idx = BitVec.cons true (BitVec.ofNat p.idxW level)

/-- The address is refused: a write to it, and a read that has been decoded. -/
structure Refused (a : BitVec p.aw) : Prop where
  write : ∀ (s : AxiCtrl p) (i : AxiIn p), s.wrFire i = true → i.awaddr = a →
    (s.edge false i).bresp = slverr
  read : ∀ (s : AxiCtrl p) (i : AxiIn p), s.rdBusy = true → s.arFire i = false →
    (⟨s.rK, s.rSym, s.rI⟩ : AxiTarget p) = p.decode a → (s.edge false i).rresp = slverr

/-! ### What is decoded -/

variable {a : BitVec p.aw} {s : Fin p.nSym} {o : ℕ}

/-- The windows of all symbols are in the upper half of the address space. -/
theorem symBase_add_lt (hwindows : p.symW + p.winW + 1 ≤ p.aw) (ho : o < 2 ^ p.winW) :
    symBase p s + o < 2 ^ p.aw := by
  have hs : (s : ℕ) + 1 ≤ 2 ^ p.symW := s.isLt.trans_le (Nat.le_pow_clog Nat.one_lt_two p.nSym)
  have htop : 2 ^ p.aw = 2 ^ (p.aw - 1) + 2 ^ (p.aw - 1) := by
    rw [← Nat.two_pow_succ, Nat.sub_add_cancel (by omega)]
  calc
    symBase p s + o < 2 ^ (p.aw - 1) + ((s : ℕ) + 1) * 2 ^ p.winW := by
      rw [symBase, Nat.succ_mul]
      change 2 ^ (p.aw - 1) + s * 2 ^ p.winW + o < _
      omega
    _ ≤ 2 ^ (p.aw - 1) + 2 ^ p.symW * 2 ^ p.winW :=
      Nat.add_le_add_left (Nat.mul_le_mul_right _ hs) _
    _ = 2 ^ (p.aw - 1) + 2 ^ (p.symW + p.winW) := by rw [Nat.pow_add]
    _ ≤ 2 ^ p.aw := by
      rw [htop]
      exact Nat.add_le_add_left (Nat.pow_le_pow_right Nat.two_pos (by omega)) _

theorem toNat_sideLevel (side : Bool) {level : ℕ} (h : level < 2 ^ p.idxW) :
    (BitVec.cons side (BitVec.ofNat p.idxW level)).toNat = side.toNat * 2 ^ p.idxW + level := by
  rw [BitVec.toNat_cons', BitVec.toNat_ofNat, Nat.mod_eq_of_lt h, Nat.shiftLeft_eq]

/-- The parts of a window, in multiples of the number of levels. -/
theorem window_parts (p : AxiParams) : 2 ^ p.winW = 16 * 2 ^ p.idxW ∧
    2 ^ (p.idxW + 3) = 8 * 2 ^ p.idxW ∧ 2 ^ (p.idxW + 2) = 4 * 2 ^ p.idxW ∧ 128 ≤ 2 ^ p.idxW := by
  obtain ⟨k, haw1, haw, hwin, hidx⟩ := p.aw_eq
  refine ⟨?_, ?_, ?_, Nat.pow_le_pow_right Nat.two_pos hidx⟩
  · rw [hwin, Nat.pow_add, Nat.mul_comm]
  · rw [Nat.pow_add, Nat.mul_comm]
  · rw [Nat.pow_add, Nat.mul_comm]

/-- The index of a word of the book is its place there. -/
theorem decode_book_idx (h : (p.decode a).kind = .book) {x : ℕ} (hx : x < 2 * 2 ^ p.idxW)
    (ha : a.toNat = symBase p s + (2 ^ (p.idxW + 3) + 4 * x)) : (p.decode a).idx.toNat = x := by
  obtain ⟨hwhole, hhalf, -, -⟩ := window_parts p
  obtain ⟨k, haw1, haw, hwin, hidx⟩ := p.aw_eq
  have hfield : (p.decode a).idx = (a.extractLsb' 0 p.winW).extractLsb' 2 (p.idxW + 1) := by
    simp only [AxiParams.decode] at h ⊢
    split_ifs at h ⊢
    rfl
  have hoff : a.toNat % 2 ^ p.winW = 2 ^ (p.idxW + 3) + 4 * x :=
    AxiParams.window_mod (by omega) ha
  have hquot : (8 * 2 ^ p.idxW + 4 * x) / 2 ^ 2 = 2 * 2 ^ p.idxW + x := by omega
  rw [hfield, BitVec.extractLsb'_toNat, BitVec.extractLsb'_toNat, Nat.shiftRight_zero, hoff,
    Nat.shiftRight_eq_div_pow, hhalf, hquot, Nat.pow_succ', Nat.add_mod_left,
    Nat.mod_eq_of_lt hx]

/-- An address in the window of a symbol. -/
theorem decode_window (hwindows : p.symW + p.winW + 1 ≤ p.aw) (ho : o < 2 ^ p.winW)
    (ha : a.toNat = symBase p s + o) :
    (p.decode a).kind = (if 8 * 2 ^ p.idxW ≤ o then .book
      else if o < 512 then if 256 ≤ o then .lut else .sreg
      else .none) ∧
    (p.decode a).sym.toNat = s ∧
    (o < 512 → (p.decode a).idx.toNat = o / 4 % 64) := by
  obtain ⟨hwhole, hhalf, -, hle⟩ := window_parts p
  have hs : (s : ℕ) < 2 ^ (p.aw - 1 - p.winW) := by
    refine s.isLt.trans_le ((Nat.le_pow_clog Nat.one_lt_two p.nSym).trans ?_)
    exact Nat.pow_le_pow_right Nat.two_pos (show p.symW ≤ _ by omega)
  obtain ⟨hkind, hidx⟩ := AxiParams.decode_symbol hs ho ha
  have hbook : 2 ^ (p.winW - 1) = 8 * 2 ^ p.idxW := hhalf
  rw [if_pos s.isLt, hbook] at hkind
  exact ⟨hkind, AxiParams.decode_sym hwindows s.isLt ho ha,
    fun hlo => hidx s.isLt hlo (by rw [hbook]; omega)⟩

/-- **The decoder takes an address back to its word.** -/
theorem is_decode (hlevels : p.levels = 2 ^ p.idxW) (hwindows : p.symW + p.winW + 1 ≤ p.aw)
    {m : MapWord p} (ha : a.toNat = m.address) : m.Is (p.decode a) := by
  obtain ⟨hwhole, hhalf, hquarter, hle⟩ := window_parts p
  cases m with
  | global r =>
    have hlo : a.toNat < 256 := by
      rw [ha, address]
      omega
    have hlower : 256 ≤ 2 ^ (p.aw - 1) := by
      obtain ⟨k, haw1, -, hwin, hidx⟩ := p.aw_eq
      exact Nat.pow_le_pow_right Nat.two_pos (show 8 ≤ p.aw - 1 by omega)
    obtain ⟨hkind, hidx⟩ := AxiParams.decode_global (hlo.trans_le hlower)
    rw [if_pos hlo] at hkind
    have hindex := hidx hlo
    rw [ha, address] at hindex
    exact ⟨hkind, hindex.trans (by omega)⟩
  | register s r =>
    obtain ⟨hkind, hsym, hidx⟩ := decode_window hwindows (by omega) ha
    rw [if_neg (by omega), if_pos (by omega), if_neg (by omega)] at hkind
    exact ⟨hkind, hsym, (hidx (by omega)).trans (by omega)⟩
  | skew s k =>
    obtain ⟨hkind, hsym, hidx⟩ := decode_window hwindows (by omega) ha
    rw [if_neg (by omega), if_pos (by omega), if_pos (by omega)] at hkind
    exact ⟨hkind, hsym, (hidx (by omega)).trans (by omega)⟩
  | bidQty s level =>
    have hlevel : (level : ℕ) < 2 ^ p.idxW := level.isLt.trans_eq hlevels
    obtain ⟨hkind, hsym, -⟩ := decode_window hwindows (by omega) ha
    rw [if_pos (by omega)] at hkind
    refine ⟨hkind, hsym, BitVec.eq_of_toNat_eq ?_⟩
    rw [decode_book_idx hkind (by omega) ha, toNat_sideLevel false hlevel, Bool.toNat_false,
      Nat.zero_mul, Nat.zero_add]
  | askQty s level =>
    have hlevel : (level : ℕ) < 2 ^ p.idxW := level.isLt.trans_eq hlevels
    obtain ⟨hkind, hsym, -⟩ := decode_window hwindows (by omega) ha
    rw [if_pos (by omega)] at hkind
    refine ⟨hkind, hsym, BitVec.eq_of_toNat_eq ?_⟩
    -- the asks follow the bids, a level for each
    have hplace : a.toNat = symBase p s + (2 ^ (p.idxW + 3) + 4 * (2 ^ p.idxW + level)) := by
      rw [ha, address, hquarter]
      omega
    rw [decode_book_idx hkind (by omega) hplace, toNat_sideLevel true hlevel, Bool.toNat_true,
      Nat.one_mul]

/-- A target is that of one word. -/
theorem Is.unique (hlevels : p.levels = 2 ^ p.idxW) {d : AxiTarget p} {m n : MapWord p}
    (hm : m.Is d) (hn : n.Is d) : m = n := by
  have hlevel (level : Fin p.levels) : (level : ℕ) < 2 ^ p.idxW := level.isLt.trans_eq hlevels
  have hside {side side' : Bool} {l l' : Fin p.levels}
      (h : BitVec.cons side (BitVec.ofNat p.idxW l) = BitVec.cons side' (BitVec.ofNat p.idxW l')) :
      side = side' ∧ l = l' := by
    have hvalue := congrArg BitVec.toNat h
    have hlow := hlevel l
    have hlow' := hlevel l'
    rw [toNat_sideLevel side hlow, toNat_sideLevel side' hlow'] at hvalue
    cases side <;> cases side' <;>
      simp only [Bool.toNat_false, Bool.toNat_true, Nat.zero_mul, Nat.one_mul] at hvalue
    · exact ⟨rfl, Fin.ext (by omega)⟩
    · omega
    · omega
    · exact ⟨rfl, Fin.ext (by omega)⟩
  cases m <;> cases n <;>
    first
    | exact absurd (hm.1.symm.trans hn.1) (by decide)
    | skip
  case global.global => rw [Fin.ext (hm.2.symm.trans hn.2)]
  case register.register | skew.skew =>
    rw [Fin.ext (hm.2.1.symm.trans hn.2.1), Fin.ext (hm.2.2.symm.trans hn.2.2)]
  case bidQty.bidQty | askQty.askQty =>
    rw [Fin.ext (hm.2.1.symm.trans hn.2.1), (hside (hm.2.2.symm.trans hn.2.2)).2]
  all_goals
    exact absurd (hside (hm.2.2.symm.trans hn.2.2)).1 (by decide)

theorem address_lt (hlevels : p.levels = 2 ^ p.idxW) (hwindows : p.symW + p.winW + 1 ≤ p.aw)
    (m : MapWord p) : m.address < 2 ^ p.aw := by
  obtain ⟨hwhole, hhalf, hquarter, hle⟩ := window_parts p
  cases m with
  | global r =>
    have haw : 4 ≤ p.aw := by
      obtain ⟨k, -, haw, hwin, hidx⟩ := p.aw_eq
      omega
    have := Nat.pow_le_pow_right Nat.two_pos haw
    rw [address]
    omega
  | register s r => exact symBase_add_lt hwindows (by omega)
  | skew s k => exact symBase_add_lt hwindows (by omega)
  | bidQty s level | askQty s level =>
    have := level.isLt
    exact symBase_add_lt hwindows (by omega)

theorem symBase_mod (p : AxiParams) (s : ℕ) : symBase p s % 4 = 0 := by
  obtain ⟨k, haw1, -, hwin, hidx⟩ := p.aw_eq
  have hfour {n : ℕ} (hn : 2 ≤ n) : 4 ∣ 2 ^ n := Nat.pow_dvd_pow 2 hn
  exact Nat.mod_eq_zero_of_dvd
    (Nat.dvd_add (hfour (by omega)) (Nat.dvd_mul_left_of_dvd (hfour (by omega)) s))

/-- Every word of the map is one of these. -/
theorem exists_address (hlevels : p.levels = 2 ^ p.idxW) {n : ℕ} (h : p.Mapped (2 ^ p.idxW) n)
    (hword : n % 4 = 0) : ∃ m : MapWord p, m.address = n := by
  obtain ⟨-, hhalf, hquarter, hle⟩ := window_parts p
  have hbook : 2 ^ (p.winW - 1) = 8 * 2 ^ p.idxW := hhalf
  have hasks : 2 ^ (p.winW - 2) = 4 * 2 ^ p.idxW := hquarter
  have hoffset {s o : ℕ} (h : (2 ^ (p.aw - 1) + s * 2 ^ p.winW + o) % 4 = 0) : o % 4 = 0 := by
    have hbase := symBase_mod p s
    rw [symBase] at hbase
    change (2 ^ (p.aw - 1) + s * 2 ^ p.winW) % 4 = 0 at hbase
    omega
  rcases h with hg | ⟨o, ⟨s, hs, ho, rfl⟩, hr⟩ | ⟨o, ⟨s, hs, ho, rfl⟩, k, hk, hv⟩ |
    ⟨o, ⟨s, hs, ho, rfl⟩, k, hk, hv⟩
  · refine ⟨.global ⟨n / 4, hg⟩, ?_⟩
    change 4 * (n / 4) = n
    omega
  · have hzero := hoffset hword
    refine ⟨.register ⟨s, hs⟩ ⟨o / 4, hr⟩, ?_⟩
    change symBase p s + 4 * (o / 4) = symBase p s + o
    omega
  · have hzero := hoffset hword
    refine ⟨.skew ⟨s, hs⟩ ⟨k, hk⟩, ?_⟩
    change symBase p s + (0x100 + 4 * k) = symBase p s + o
    omega
  · have hzero := hoffset hword
    rcases hv with hv | hv
    · refine ⟨.bidQty ⟨s, hs⟩ ⟨k, hk.trans_eq hlevels.symm⟩, ?_⟩
      change symBase p s + (2 ^ (p.idxW + 3) + 4 * k) = symBase p s + o
      omega
    · refine ⟨.askQty ⟨s, hs⟩ ⟨k, hk.trans_eq hlevels.symm⟩, ?_⟩
      change symBase p s + (2 ^ (p.idxW + 3) + 2 ^ (p.idxW + 2) + 4 * k) = symBase p s + o
      omega

/-- What is not readable is refused. -/
theorem refused_of_not_readable (h : ¬(p.decode a).Readable) : Refused a where
  write := by
    rintro s i hfire rfl
    rcases (AxiCtrl.edge_writes hfire).bresp with ⟨-, hw⟩ | ⟨hresp, -⟩
    · exact absurd hw.1 h
    · exact hresp
  read := by
    intro s i hbusy hfire htarget
    rw [← htarget] at h
    rcases AxiCtrl.read_cases s i with hstart | hanswer | hwait
    · exact absurd hstart.fires (Bool.eq_false_iff.mp hfire)
    · rcases hanswer.rresp with ⟨-, hr⟩ | ⟨hresp, -⟩
      · exact absurd hr h
      · exact hresp
    · -- only a read of the book waits, and that is answered
      have hbook := (hwait.waits hbusy).1
      simp only [AxiTarget.Readable, hbook, not_true_eq_false] at h

end MapWord

open MapWord

/-- **The address map.** The addresses of its words are different ones, `decode` takes each back to
its kind, symbol and index, and any other address of a word is decoded to no kind, or to the number
of a register that there is not, and is refused. -/
theorem address_map_inverted (p : AxiParams) (hlevels : p.levels = 2 ^ p.idxW)
    (hwindows : p.symW + p.winW + 1 ≤ p.aw) :
    (∀ m : MapWord p, m.address < 2 ^ p.aw) ∧
    Function.Injective (address (p := p)) ∧
    (∀ m : MapWord p, m.Is (p.decode (BitVec.ofNat p.aw m.address))) ∧
    (∀ a : BitVec p.aw, a.toNat % 4 = 0 → (∀ m : MapWord p, m.address ≠ a.toNat) →
      ((p.decode a).kind = .none ∨ (p.decode a).kind = .greg ∨ (p.decode a).kind = .sreg) ∧
        Refused a) := by
  have hlt := address_lt hlevels hwindows
  have hvalue (m : MapWord p) : (BitVec.ofNat p.aw m.address).toNat = m.address := by
    rw [BitVec.toNat_ofNat, Nat.mod_eq_of_lt (hlt m)]
  have his (m : MapWord p) : m.Is (p.decode (BitVec.ofNat p.aw m.address)) :=
    is_decode hlevels hwindows (hvalue m)
  refine ⟨hlt, ?_, his, ?_⟩
  · intro m n h
    have hn := his n
    rw [← h] at hn
    exact (his m).unique hlevels hn
  · intro a hword hother
    have hread : ¬(p.decode a).Readable := by
      rw [← AxiParams.mapped_iff]
      intro hmap
      obtain ⟨m, hm⟩ := exists_address hlevels hmap hword
      exact hother m hm
    refine ⟨?_, refused_of_not_readable hread⟩
    rw [AxiTarget.Readable] at hread
    cases hk : (p.decode a).kind with
    | none => exact .inl rfl
    | greg => exact .inr (.inl rfl)
    | sreg => exact .inr (.inr rfl)
    | lut | book => exact absurd trivial (by simpa only [hk] using hread)

/-- Three symbols of 1024 levels. -/
def threeSymbols : AxiParams where
  nSym := 3
  levels := 1024
  qtyW := 32
  posW := 32
  aw := 24
  two_le_nSym := by decide
  le_levels := by decide
  le_aw := by decide +kernel

theorem five_lt_levels : 5 < threeSymbols.levels := by decide

/-- The level 5 of the asks of the last of the three. -/
def lastAsk : MapWord threeSymbols := .askQty ⟨2, Nat.lt_succ_self 2⟩ ⟨5, five_lt_levels⟩

theorem address_map_inverted_three :
    lastAsk.address = 0x80B014 ∧
      lastAsk.Is (threeSymbols.decode (BitVec.ofNat threeSymbols.aw lastAsk.address)) :=
  ⟨by decide +kernel,
    (address_map_inverted threeSymbols (by decide +kernel) (by decide +kernel)).2.2.1 lastAsk⟩

end Fmma
