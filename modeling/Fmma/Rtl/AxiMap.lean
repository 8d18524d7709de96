import Fmma.Lib.Bits
import Fmma.Rtl.AxiCtrl

/-!
# The address map

The map in the header of `axi_ctrl.v`, in byte addresses, and what `decode` makes of an address.
Accesses are full words, so the two lowest bits of an address do not count.
-/

namespace Fmma

namespace AxiParams

variable (p : AxiParams)

/-! ### The map -/

/-- `ID`, `CTRL`, `STATUS`. -/
def GlobalReg (n : ℕ) : Prop := n / 4 < 3

/-- The offset of an address in the window of a symbol, the windows following each other from
half-way through the address space. -/
def InWindow (n o : ℕ) : Prop :=
  ∃ s < p.nSym, o < 2 ^ p.winW ∧ n = 2 ^ (p.aw - 1) + s * 2 ^ p.winW + o

/-- `TOB`, `HALF_SPREAD`, `POS_LIMIT`, `LUT_SWAP`. -/
def SymbolReg (n : ℕ) : Prop := ∃ o, p.InWindow n o ∧ o / 4 < 4

/-- `SKEW_LUT[0..63]`. -/
def SkewEntry (n : ℕ) : Prop := ∃ o, p.InWindow n o ∧ ∃ k < 64, o / 4 * 4 = 0x100 + 4 * k

/-- `BID_QTY[k]` and `ASK_QTY[k]`, of as many levels: the book starts at the half-way point of the
window, the asks half-way through the book. -/
def BookWord (levels n : ℕ) : Prop :=
  ∃ o, p.InWindow n o ∧ ∃ k < levels, o / 4 * 4 = 2 ^ (p.winW - 1) + 4 * k ∨
    o / 4 * 4 = 2 ^ (p.winW - 1) + 2 ^ (p.winW - 2) + 4 * k

/-- The address is in the map. -/
def Mapped (levels n : ℕ) : Prop :=
  GlobalReg n ∨ p.SymbolReg n ∨ p.SkewEntry n ∨ p.BookWord levels n

/-! ### The decoder -/

variable {p}

theorem aw_eq : ∃ k, p.aw - 1 = p.winW + 1 + k ∧ p.aw = p.winW + 2 + k ∧ p.winW = p.idxW + 4 ∧
    7 ≤ p.idxW := by
  have hle := p.le_aw
  have hidx : 7 ≤ Nat.clog 2 p.levels := by
    rw [show 7 = Nat.clog 2 128 from by decide +kernel]
    exact Nat.clog_mono_right 2 p.le_levels
  refine ⟨p.aw - 2 - p.winW, ?_, ?_, rfl, hidx⟩
  all_goals
    simp only [winW, idxW]
    omega

/-- A half window has room for the registers and the table of a symbol. -/
theorem le_half_window (p : AxiParams) : 512 ≤ 2 ^ (p.winW - 1) := by
  obtain ⟨k, -, -, hwin, hidx⟩ := p.aw_eq
  rw [show (512 : ℕ) = 2 ^ 9 from rfl]
  exact Nat.pow_le_pow_right (by decide) (by omega)

/-- The upper half of the space is made of windows. -/
theorem upper_half_eq (p : AxiParams) :
    2 ^ (p.aw - 1) = 2 ^ (p.aw - 1 - p.winW) * 2 ^ p.winW := by
  obtain ⟨k, haw1, -, -, -⟩ := p.aw_eq
  rw [← Nat.pow_add]
  congr 1
  omega

/-- The top bit tells the halves of the space apart. -/
theorem top_bit (a : BitVec p.aw) : a.getLsbD (p.aw - 1) = decide (2 ^ (p.aw - 1) ≤ a.toNat) := by
  obtain ⟨k, -, haw, -, -⟩ := p.aw_eq
  rw [← BitVec.testBit_toNat, Bits.testBit_top]
  rw [Nat.sub_add_cancel (by omega)]
  exact a.isLt

section Window

variable {n s o : ℕ} (ho : o < 2 ^ p.winW) (hn : n = 2 ^ (p.aw - 1) + s * 2 ^ p.winW + o)

include ho hn

/-- The number of a window. -/
theorem window_div : n / 2 ^ p.winW = 2 ^ (p.aw - 1 - p.winW) + s := by
  rw [hn, upper_half_eq, ← Nat.add_mul, Nat.add_comm _ o,
    Nat.add_mul_div_right _ _ (Nat.two_pow_pos _), Nat.div_eq_of_lt ho, Nat.zero_add]

/-- The offset in a window. -/
theorem window_mod : n % 2 ^ p.winW = o := by
  rw [hn, upper_half_eq, ← Nat.add_mul, Nat.add_comm _ o, Nat.add_mul_mod_self_right,
    Nat.mod_eq_of_lt ho]

end Window

/-- An address in the lower half of the space. -/
theorem decode_global {a : BitVec p.aw} (h : a.toNat < 2 ^ (p.aw - 1)) :
    (p.decode a).kind = (if a.toNat < 256 then .greg else .none) ∧
      (a.toNat < 256 → (p.decode a).idx.toNat = a.toNat / 4) := by
  obtain ⟨k, haw1, haw, hwin, hidx⟩ := p.aw_eq
  have htop : a.getLsbD (p.aw - 1) = false :=
    (top_bit a).trans (decide_eq_false (not_le.mpr h))
  have hfield : a.extractLsb' 8 (p.aw - 9) = 0 ↔ a.toNat < 256 := by
    rw [← BitVec.toNat_inj, BitVec.extractLsb'_toNat]
    refine Bits.field_eq_zero_iff (s := 8) (h.trans_eq (congrArg (2 ^ ·) ?_))
    omega
  simp only [decode, htop, if_true]
  by_cases hlo : a.toNat < 256
  · rw [if_pos (hfield.mpr hlo), if_pos hlo]
    refine ⟨rfl, fun _ => ?_⟩
    have hpow : 64 < 2 ^ (p.idxW + 1) :=
      lt_of_lt_of_le (by decide : 64 < 2 ^ 8) (Nat.pow_le_pow_right (by decide) (by omega))
    rw [BitVec.toNat_setWidth, BitVec.extractLsb'_toNat, Nat.shiftRight_eq_div_pow,
      Nat.mod_eq_of_lt (by omega), Nat.mod_eq_of_lt (by omega)]
  · rw [if_neg fun hz => hlo (hfield.mp hz), if_neg hlo]
    exact ⟨rfl, fun hc => absurd hc hlo⟩

/-- An address in the upper half: the window `s` and the offset `o`. -/
theorem decode_symbol {a : BitVec p.aw} {s o : ℕ} (hs : s < 2 ^ (p.aw - 1 - p.winW))
    (ho : o < 2 ^ p.winW) (ha : a.toNat = 2 ^ (p.aw - 1) + s * 2 ^ p.winW + o) :
    (p.decode a).kind =
      (if s < p.nSym then
        if 2 ^ (p.winW - 1) ≤ o then .book
        else if o < 512 then if 256 ≤ o then .lut else .sreg
        else .none
      else .none) ∧
    (s < p.nSym → o < 512 → o < 2 ^ (p.winW - 1) → (p.decode a).idx.toNat = o / 4 % 64) := by
  obtain ⟨k, haw1, haw, hwin, hidx⟩ := p.aw_eq
  have htop : a.getLsbD (p.aw - 1) = true := by
    refine (top_bit a).trans (decide_eq_true ?_)
    omega
  have hsym : (a.extractLsb' p.winW (p.aw - 1 - p.winW)).toNat = s := by
    rw [BitVec.extractLsb'_toNat, Nat.shiftRight_eq_div_pow, window_div ho ha, Nat.add_mod_left,
      Nat.mod_eq_of_lt hs]
  have hoff : (a.extractLsb' 0 p.winW).toNat = o := by
    rw [BitVec.extractLsb'_toNat, Nat.shiftRight_zero, window_mod ho ha]
  have hbook : (a.extractLsb' 0 p.winW).getLsbD (p.winW - 1) = decide (2 ^ (p.winW - 1) ≤ o) := by
    rw [← BitVec.testBit_toNat, hoff]
    refine Bits.testBit_top ?_
    rwa [Nat.sub_add_cancel (by omega)]
  simp only [decode, htop, Bool.true_eq_false, if_false, hsym, hbook, decide_eq_true_eq]
  by_cases hn : s < p.nSym
  · rw [if_pos hn, if_pos hn]
    by_cases hb : 2 ^ (p.winW - 1) ≤ o
    · rw [if_pos hb, if_pos hb]
      exact ⟨rfl, fun _ _ hlt => absurd hb (not_le.mpr hlt)⟩
    · have hfield : (a.extractLsb' 0 p.winW).extractLsb' 9 (p.winW - 10) = 0 ↔ o < 512 := by
        rw [← BitVec.toNat_inj, BitVec.extractLsb'_toNat, hoff]
        refine Bits.field_eq_zero_iff (s := 9) ((not_le.mp hb).trans_eq (congrArg (2 ^ ·) ?_))
        omega
      rw [if_neg hb, if_neg hb]
      by_cases hlo : o < 512
      · have hlut : (a.extractLsb' 0 p.winW).getLsbD 8 = decide (256 ≤ o) := by
          rw [← BitVec.testBit_toNat, hoff]
          exact Bits.testBit_top (k := 8) hlo
        rw [if_pos (hfield.mpr hlo), if_pos hlo]
        refine ⟨by simp only [hlut, decide_eq_true_eq], fun _ _ _ => ?_⟩
        have hpow : 64 < 2 ^ (p.idxW + 1) :=
          lt_of_lt_of_le (by decide : 64 < 2 ^ 8) (Nat.pow_le_pow_right (by decide) (by omega))
        rw [BitVec.toNat_setWidth, BitVec.extractLsb'_toNat, hoff, Nat.shiftRight_eq_div_pow,
          Nat.mod_eq_of_lt (by omega)]
      · rw [if_neg fun hz => hlo (hfield.mp hz), if_neg hlo]
        exact ⟨rfl, fun _ hc => absurd hc hlo⟩
  · rw [if_neg hn, if_neg hn]
    exact ⟨rfl, fun hc => absurd hc hn⟩

/-- The symbol of an address, where the window numbers of all symbols fit into it. -/
theorem decode_sym {a : BitVec p.aw} {s o : ℕ} (hwindows : p.symW + p.winW + 1 ≤ p.aw)
    (hs : s < p.nSym) (ho : o < 2 ^ p.winW)
    (ha : a.toNat = 2 ^ (p.aw - 1) + s * 2 ^ p.winW + o) : (p.decode a).sym.toNat = s := by
  have hsym : (p.decode a).sym = a.extractLsb' p.winW p.symW := by
    simp only [AxiParams.decode]
    split_ifs <;> rfl
  have hlt : s < 2 ^ p.symW := hs.trans_le (Nat.le_pow_clog Nat.one_lt_two p.nSym)
  -- the windows of the upper half are a multiple of those that `s` can count
  have hdvd : 2 ^ p.symW ∣ 2 ^ (p.aw - 1 - p.winW) := Nat.pow_dvd_pow 2 (by omega)
  rw [hsym, BitVec.extractLsb'_toNat, Nat.shiftRight_eq_div_pow, window_div ho ha,
    Nat.add_mod, Nat.mod_eq_zero_of_dvd hdvd, Nat.zero_add, Nat.mod_mod, Nat.mod_eq_of_lt hlt]

/-! ### The decoder follows the map -/

/-- Every address of the upper half is in one window, at one offset. -/
theorem exists_window {a : BitVec p.aw} (h : 2 ^ (p.aw - 1) ≤ a.toNat) :
    ∃ s o, s < 2 ^ (p.aw - 1 - p.winW) ∧ o < 2 ^ p.winW ∧
      a.toNat = 2 ^ (p.aw - 1) + s * 2 ^ p.winW + o := by
  obtain ⟨k, haw1, haw, hwin, hidx⟩ := p.aw_eq
  have hhalf := p.upper_half_eq
  have hlt : a.toNat < 2 ^ (p.aw - 1) + 2 ^ (p.aw - 1) := by
    rw [← Nat.two_pow_succ, Nat.sub_add_cancel (by omega)]
    exact a.isLt
  refine ⟨(a.toNat - 2 ^ (p.aw - 1)) / 2 ^ p.winW, (a.toNat - 2 ^ (p.aw - 1)) % 2 ^ p.winW, ?_,
    Nat.mod_lt _ (Nat.two_pow_pos _), ?_⟩
  · rw [Nat.div_lt_iff_lt_mul (Nat.two_pow_pos _), ← hhalf]
    omega
  · rw [Nat.add_assoc, Nat.div_add_mod']
    omega

theorem inWindow_iff {n s o o' : ℕ} (ho : o < 2 ^ p.winW)
    (hn : n = 2 ^ (p.aw - 1) + s * 2 ^ p.winW + o) : p.InWindow n o' ↔ s < p.nSym ∧ o' = o := by
  constructor
  · rintro ⟨t, ht, ho', heq⟩
    have hsum : s * 2 ^ p.winW + o = t * 2 ^ p.winW + o' := by omega
    have hmod := congrArg (· % 2 ^ p.winW) hsum
    have hdiv := congrArg (· / 2 ^ p.winW) hsum
    simp only [Nat.mul_add_mod', Nat.mod_eq_of_lt ho, Nat.mod_eq_of_lt ho'] at hmod
    simp only [Nat.add_comm (_ * _), Nat.add_mul_div_right _ _ (Nat.two_pow_pos p.winW),
      Nat.div_eq_of_lt ho, Nat.div_eq_of_lt ho', Nat.zero_add] at hdiv
    exact ⟨hdiv ▸ ht, hmod.symm⟩
  · rintro ⟨hs, rfl⟩
    exact ⟨s, hs, ho, hn⟩

/-- No window begins below the middle of the space. -/
theorem not_inWindow {n o : ℕ} (h : n < 2 ^ (p.aw - 1)) : ¬p.InWindow n o := by
  rintro ⟨s, -, -, rfl⟩
  omega

end AxiParams

namespace AxiTarget

variable {p : AxiParams}

/-- A read of the target is answered with `OKAY`. -/
def Readable (d : AxiTarget p) : Prop :=
  match d.kind with
  | .greg => d.idx.toNat < 3
  | .sreg => d.idx.toNat < 4
  | .lut | .book => True
  | .none => False

end AxiTarget

namespace AxiParams

variable {p : AxiParams}

/-- The book is where `decode` finds it. -/
theorem bookWord_iff (a : BitVec p.aw) :
    p.BookWord (2 ^ p.idxW) a.toNat ↔ (p.decode a).kind = .book := by
  obtain ⟨k, haw1, haw, hwin, hidx⟩ := p.aw_eq
  have h1 : 2 ^ (p.winW - 1) = 8 * 2 ^ p.idxW := by
    rw [hwin, show p.idxW + 4 - 1 = p.idxW + 3 by omega, Nat.pow_add, Nat.mul_comm]
  have h2 : 2 ^ (p.winW - 2) = 4 * 2 ^ p.idxW := by
    rw [hwin, show p.idxW + 4 - 2 = p.idxW + 2 by omega, Nat.pow_add, Nat.mul_comm]
  have h0 : 2 ^ p.winW = 16 * 2 ^ p.idxW := by rw [hwin, Nat.pow_add, Nat.mul_comm]
  rcases Nat.lt_or_ge a.toNat (2 ^ (p.aw - 1)) with hlo | hhi
  · rw [(decode_global hlo).1]
    constructor
    · rintro ⟨o, hw, -⟩
      exact absurd hw (not_inWindow hlo)
    · intro hk
      split_ifs at hk
  · obtain ⟨s, o, hs, ho, ha⟩ := exists_window hhi
    rw [(decode_symbol hs ho ha).1]
    constructor
    · rintro ⟨o', hw, k, hk, hval⟩
      obtain ⟨hn, rfl⟩ := (inWindow_iff ho ha).mp hw
      rw [h1, h2] at hval
      rw [if_pos hn, if_pos (by omega)]
    · intro hk
      by_cases hn : s < p.nSym
      · by_cases hb : 2 ^ (p.winW - 1) ≤ o
        · refine ⟨o, (inWindow_iff ho ha).mpr ⟨hn, rfl⟩, ?_⟩
          rw [h1] at hb
          rw [h1, h2]
          by_cases hask : o < 12 * 2 ^ p.idxW
          · exact ⟨(o - 8 * 2 ^ p.idxW) / 4, by omega, .inl (by omega)⟩
          · exact ⟨(o - 12 * 2 ^ p.idxW) / 4, by omega, .inr (by omega)⟩
        · rw [if_pos hn, if_neg hb] at hk
          split_ifs at hk
      · rw [if_neg hn] at hk
        cases hk

/-- **The decoder follows the map.** -/
theorem mapped_iff (a : BitVec p.aw) :
    p.Mapped (2 ^ p.idxW) a.toNat ↔ (p.decode a).Readable := by
  obtain ⟨k, haw1, haw, hwin, hidx⟩ := p.aw_eq
  have hquarter := p.le_half_window
  have hwhole : 2 ^ (p.winW - 1) ≤ 2 ^ p.winW := Nat.pow_le_pow_right (by decide) (by omega)
  have hhalf : 2 ^ p.winW ≤ 2 ^ (p.aw - 1) := Nat.pow_le_pow_right (by decide) (by omega)
  rcases Nat.lt_or_ge a.toNat (2 ^ (p.aw - 1)) with hlo | hhi
  -- only the global registers are in the lower half, and only the words of symbols in the upper
  · obtain ⟨hkind, hindex⟩ := decode_global hlo
    have hmap : p.Mapped (2 ^ p.idxW) a.toNat ↔ GlobalReg a.toNat := by
      refine ⟨?_, .inl⟩
      rintro (hg | ⟨o, hw, -⟩ | ⟨o, hw, -⟩ | ⟨o, hw, -⟩)
      · exact hg
      all_goals exact absurd hw (not_inWindow hlo)
    rw [hmap, GlobalReg, AxiTarget.Readable, hkind]
    by_cases hg : a.toNat < 256
    · simp only [if_pos hg, hindex hg]
    · simp only [if_neg hg, iff_false, not_lt]
      omega
  · obtain ⟨s, o, hs, ho, ha⟩ := exists_window hhi
    obtain ⟨hkind, hindex⟩ := decode_symbol hs ho ha
    have hmap : p.Mapped (2 ^ p.idxW) a.toNat ↔
        s < p.nSym ∧ (o < 16 ∨ 256 ≤ o ∧ o < 512) ∨ (p.decode a).kind = .book := by
      rw [← bookWord_iff, Mapped, SymbolReg, SkewEntry]
      simp only [inWindow_iff ho ha]
      constructor
      · rintro (hg | ⟨_, ⟨hn, rfl⟩, hr⟩ | ⟨_, ⟨hn, rfl⟩, k, hk, hv⟩ | hb)
        · rw [GlobalReg] at hg
          omega
        · exact .inl ⟨hn, by omega⟩
        · exact .inl ⟨hn, by omega⟩
        · exact .inr hb
      · rintro (⟨hn, hr | hl⟩ | hb)
        · exact .inr (.inl ⟨o, ⟨hn, rfl⟩, by omega⟩)
        · exact .inr (.inr (.inl ⟨o, ⟨hn, rfl⟩, (o - 256) / 4, by omega, by omega⟩))
        · exact .inr (.inr (.inr hb))
    rw [hmap, AxiTarget.Readable]
    by_cases hn : s < p.nSym
    · rw [if_pos hn] at hkind
      by_cases hb : 2 ^ (p.winW - 1) ≤ o
      · rw [if_pos hb] at hkind
        rw [hkind]
        exact iff_of_true (.inr rfl) trivial
      · rw [if_neg hb] at hkind
        by_cases hlo : o < 512
        · rw [if_pos hlo] at hkind
          by_cases hl : 256 ≤ o
          · rw [if_pos hl] at hkind
            rw [hkind]
            exact iff_of_true (.inl ⟨hn, .inr ⟨hl, hlo⟩⟩) trivial
          · rw [if_neg hl] at hkind
            rw [hkind, hindex hn hlo (not_le.mp hb)]
            constructor
            · rintro (⟨-, hr⟩ | hc)
              · change o / 4 % 64 < 4
                omega
              · cases hc
            · intro hr
              have hr' : o / 4 % 64 < 4 := hr
              exact .inl ⟨hn, .inl (by omega)⟩
        · rw [if_neg hlo] at hkind
          rw [hkind]
          refine iff_of_false ?_ id
          rintro (⟨-, hr⟩ | hc)
          · omega
          · cases hc
    · rw [if_neg hn] at hkind
      rw [hkind]
      refine iff_of_false ?_ id
      rintro (⟨hc, -⟩ | hc)
      · exact hn hc
      · cases hc

end AxiParams

end Fmma
