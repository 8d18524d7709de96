import Fmma.Lib.Bits
import Fmma.Lib.Clocked
import Fmma.Rtl.BookBank
import Mathlib.Tactic.IntervalCases
import Mathlib.Tactic.Ring
import Mathlib.Tactic.Zify

/-!
# The top of the book

What `book_bank` shows four cycles after it has accepted an update is the top of the book of all
updates up to that one.
-/

namespace Fmma

/-! ### The reference book -/

/-- A book: the quantity at every level of the bid side (`false`) and of the ask side. -/
abbrev RefBook (wselW : ℕ) := Bool → BitVec (wselW + 5) → ℕ

/-- A signed change of the quantity at one level, which stays between 0 and `2 ^ QTY_W - 1`. -/
def RefBook.apply {wselW : ℕ} (qtyW : ℕ) (r : RefBook wselW) (side : Bool)
    (idx : BitVec (wselW + 5)) (delta : ℤ) : RefBook wselW :=
  fun s l =>
    if s = side ∧ l = idx then (max 0 (min (2 ^ qtyW - 1) (r s l + delta))).toNat else r s l

/-- `book_bank` shows the top of the book. -/
structure RefBook.Shown {wselW qtyW : ℕ} (r : RefBook wselW) (b : BookBank wselW qtyW) : Prop where
  bidPresent : b.bidPresent = true ↔ ∃ l, r false l ≠ 0
  bestBid : b.bidPresent = true → IsGreatest {l | r false l ≠ 0} b.bestBid
  askPresent : b.askPresent = true ↔ ∃ l, r true l ≠ 0
  bestAsk : b.askPresent = true → IsLeast {l | r true l ≠ 0} b.bestAsk

namespace BookBank

variable {wselW qtyW : ℕ}

/-! ### The search -/

/-- A bitmap by level number. -/
def flat (map : BitVec (wselW + 5) → Bool) (l : ℕ) : Bool := map (BitVec.ofNat (wselW + 5) l)

/-- `{w, k}` is level `w * 32 + k`. -/
theorem append_ofNat {w k : ℕ} (hw : w < 2 ^ wselW) (hk : k < 32) :
    BitVec.ofNat wselW w ++ BitVec.ofNat 5 k = BitVec.ofNat (wselW + 5) (w * 32 + k) := by
  have hlt : w * 32 + k < 2 ^ (wselW + 5) := by
    rw [Nat.pow_add]
    omega
  refine BitVec.eq_of_toNat_eq ?_
  rw [BitVec.toNat_append, BitVec.toNat_ofNat, BitVec.toNat_ofNat, BitVec.toNat_ofNat,
    Nat.mod_eq_of_lt hw, Nat.mod_eq_of_lt hk, Nat.mod_eq_of_lt hlt,
    ← Nat.shiftLeft_add_eq_or_of_lt hk, Nat.shiftLeft_eq]

theorem word_ofNat {map : BitVec (wselW + 5) → Bool} {w k : ℕ} (hw : w < 2 ^ wselW)
    (hk : k < 32) : word map (BitVec.ofNat wselW w) k = flat map (w * 32 + k) := by
  rw [word, append_ofNat hw hk, flat]

theorem any32_word {map : BitVec (wselW + 5) → Bool} {w : ℕ} (hw : w < 2 ^ wselW) :
    any32 (word map (BitVec.ofNat wselW w)) = Priority.anyIn 32 (flat map) w :=
  Priority.any_range_congr fun _ hk => word_ofNat hw hk

/-- Levels by number. -/
theorem exists_flat {map : BitVec (wselW + 5) → Bool} :
    (∃ l < 2 ^ wselW * 32, flat map l = true) ↔ ∃ l, map l = true := by
  have hpow : 2 ^ wselW * 32 = 2 ^ (wselW + 5) := by rw [Nat.pow_add]
  constructor
  · rintro ⟨l, -, hl⟩
    exact ⟨_, hl⟩
  · rintro ⟨l, hl⟩
    refine ⟨l.toNat, hpow ▸ l.isLt, ?_⟩
    rwa [flat, BitVec.ofNat_toNat, BitVec.setWidth_eq]

/-- What stages B1 and B2 make of a bitmap: some level is occupied. -/
def present (map : BitVec (wselW + 5) → Bool) : Bool := anyW fun w => any32 (word map w)

/-- The highest occupied level. -/
def best (map : BitVec (wselW + 5) → Bool) : BitVec (wselW + 5) :=
  let w := msbW fun w => any32 (word map w)
  w ++ msb32 (word map w)

/-- The lowest occupied level. -/
def bestLow (map : BitVec (wselW + 5) → Bool) : BitVec (wselW + 5) :=
  let w := lsbW fun w => any32 (word map w)
  w ++ lsb32 (word map w)

theorem present_iff {map : BitVec (wselW + 5) → Bool} :
    present map = true ↔ ∃ l, map l = true := by
  have hwords : present map =
      (List.range (2 ^ wselW)).any (Priority.anyIn 32 (flat map)) :=
    Priority.any_range_congr fun w hw => any32_word hw
  rw [hwords, Priority.any_range, Priority.exists_anyIn (by decide), exists_flat]

/-- A search by number is a search of the levels. -/
theorem isGreatest_of_flat {map : BitVec (wselW + 5) → Bool} {l : ℕ}
    (h : IsGreatest {l | l < 2 ^ wselW * 32 ∧ flat map l = true} l) :
    IsGreatest {l | map l = true} (BitVec.ofNat (wselW + 5) l) := by
  have hpow : 2 ^ wselW * 32 = 2 ^ (wselW + 5) := by rw [Nat.pow_add]
  obtain ⟨⟨hlt, hset⟩, hup⟩ := h
  refine ⟨hset, fun j hj => ?_⟩
  have hle : j.toNat ≤ l := by
    refine hup ⟨hpow ▸ j.isLt, ?_⟩
    rwa [flat, BitVec.ofNat_toNat, BitVec.setWidth_eq]
  rw [BitVec.le_def, BitVec.toNat_ofNat, Nat.mod_eq_of_lt (hpow ▸ hlt)]
  exact hle

theorem isLeast_of_flat {map : BitVec (wselW + 5) → Bool} {l : ℕ}
    (h : IsLeast {l | l < 2 ^ wselW * 32 ∧ flat map l = true} l) :
    IsLeast {l | map l = true} (BitVec.ofNat (wselW + 5) l) := by
  have hpow : 2 ^ wselW * 32 = 2 ^ (wselW + 5) := by rw [Nat.pow_add]
  obtain ⟨⟨hlt, hset⟩, hdown⟩ := h
  refine ⟨hset, fun j hj => ?_⟩
  have hle : l ≤ j.toNat := by
    refine hdown ⟨hpow ▸ j.isLt, ?_⟩
    rwa [flat, BitVec.ofNat_toNat, BitVec.setWidth_eq]
  rw [BitVec.le_def, BitVec.toNat_ofNat, Nat.mod_eq_of_lt (hpow ▸ hlt)]
  exact hle

/-- **The search finds the highest occupied level.** -/
theorem isGreatest_best {map : BitVec (wselW + 5) → Bool} (h : present map = true) :
    IsGreatest {l | map l = true} (best map) := by
  have hsome := exists_flat.mpr (present_iff.mp h)
  have htop := Priority.isGreatest_two_stages (m := 32) (by decide) hsome
  have hw := (Priority.isGreatest_highest ((Priority.exists_anyIn (by decide)).mpr hsome)).1.1
  have hwords : (msbW fun w => any32 (word map w)) = BitVec.ofNat wselW
      (Priority.highest (2 ^ wselW) (Priority.anyIn 32 (flat map))) :=
    congrArg (BitVec.ofNat wselW) (Priority.highest_congr fun w hw => any32_word hw)
  set w := Priority.highest (2 ^ wselW) (Priority.anyIn 32 (flat map))
  have hbits : msb32 (word map (BitVec.ofNat wselW w)) = BitVec.ofNat 5
      (Priority.highest 32 fun k => flat map (w * 32 + k)) :=
    congrArg (BitVec.ofNat 5) (Priority.highest_congr fun k hk => word_ofNat hw hk)
  have hk : (Priority.highest 32 fun k => flat map (w * 32 + k)) < 32 := by
    have hany := (Priority.isGreatest_highest ((Priority.exists_anyIn (by decide)).mpr hsome)).1.2
    exact (Priority.isGreatest_highest (Priority.anyIn_eq_true.mp hany)).1.1
  have hbest : best map = BitVec.ofNat (wselW + 5)
      (w * 32 + Priority.highest 32 fun k => flat map (w * 32 + k)) := by
    rw [best, hwords, hbits, append_ofNat hw hk]
  rw [hbest]
  exact isGreatest_of_flat htop

/-- **The search finds the lowest occupied level.** -/
theorem isLeast_bestLow {map : BitVec (wselW + 5) → Bool} (h : present map = true) :
    IsLeast {l | map l = true} (bestLow map) := by
  have hsome := exists_flat.mpr (present_iff.mp h)
  have htop := Priority.isLeast_two_stages (m := 32) (by decide) hsome
  have hw := (Priority.isLeast_lowest ((Priority.exists_anyIn (by decide)).mpr hsome)).1.1
  have hwords : (lsbW fun w => any32 (word map w)) = BitVec.ofNat wselW
      (Priority.lowest (2 ^ wselW) (Priority.anyIn 32 (flat map))) :=
    congrArg (BitVec.ofNat wselW) (Priority.lowest_congr fun w hw => any32_word hw)
  set w := Priority.lowest (2 ^ wselW) (Priority.anyIn 32 (flat map))
  have hbits : lsb32 (word map (BitVec.ofNat wselW w)) = BitVec.ofNat 5
      (Priority.lowest 32 fun k => flat map (w * 32 + k)) :=
    congrArg (BitVec.ofNat 5) (Priority.lowest_congr fun k hk => word_ofNat hw hk)
  have hk : (Priority.lowest 32 fun k => flat map (w * 32 + k)) < 32 := by
    have hany := (Priority.isLeast_lowest ((Priority.exists_anyIn (by decide)).mpr hsome)).1.2
    exact (Priority.isLeast_lowest (Priority.anyIn_eq_true.mp hany)).1.1
  have hbest : bestLow map = BitVec.ofNat (wselW + 5)
      (w * 32 + Priority.lowest 32 fun k => flat map (w * 32 + k)) := by
    rw [bestLow, hwords, hbits, append_ofNat hw hk]
  rw [hbest]
  exact isLeast_of_flat htop

/-! ### The arithmetic -/

/-- **The adder**: `new_qty` is the changed quantity, clamped and saturated. -/
theorem toNat_applyDelta (cur delta : BitVec qtyW) :
    ((applyDelta cur delta).toNat : ℤ) = max 0 (min (2 ^ qtyW - 1) (cur.toNat + delta.toInt)) := by
  have hcur : (cur.toNat : ℤ) < 2 ^ qtyW := by exact_mod_cast cur.isLt
  have hlt := delta.two_mul_toInt_lt
  have hle := delta.le_two_mul_toInt
  have hpow1 : (2 : ℤ) ^ (qtyW + 1) = 2 * 2 ^ qtyW := by ring
  have hpow2 : (2 : ℤ) ^ (qtyW + 2) = 4 * 2 ^ qtyW := by ring
  set sum := cur.setWidth (qtyW + 2) + delta.signExtend (qtyW + 2) with hsumdef
  have hsum : sum.toInt = cur.toNat + delta.toInt := by
    have hwide : (cur.setWidth (qtyW + 2)).toInt = cur.toNat := by
      rw [BitVec.toInt_setWidth]
      refine Int.bmod_eq_of_le_mul_two ?_ ?_
      · push_cast
        omega
      · push_cast
        omega
    rw [hsumdef, BitVec.toInt_add, hwide, BitVec.toInt_signExtend_of_le (by omega)]
    refine Int.bmod_eq_of_le_mul_two ?_ ?_
    · push_cast
      omega
    · push_cast
      omega
  have hmsb : sum.getLsbD (qtyW + 1) = decide (sum.toInt < 0) := by
    rw [← BitVec.msb_eq_toInt, BitVec.msb_eq_getLsbD_last]
    rfl
  have hnew : applyDelta cur delta =
      if sum.getLsbD (qtyW + 1) then 0
      else if sum.getLsbD qtyW then BitVec.allOnes qtyW else sum.setWidth qtyW := rfl
  rw [hnew, hmsb]
  by_cases hneg : sum.toInt < 0
  · rw [if_pos (decide_eq_true hneg)]
    rw [hsum] at hneg
    simp only [BitVec.ofNat_eq_ofNat, BitVec.toNat_ofNat, Nat.zero_mod, Nat.cast_zero]
    omega
  · rw [if_neg (by simpa using hneg)]
    have hnat : (sum.toNat : ℤ) = cur.toNat + delta.toInt := by
      rw [← hsum, BitVec.toInt_eq_toNat_of_msb]
      rw [BitVec.msb_eq_toInt]
      exact decide_eq_false hneg
    have hbit : sum.getLsbD qtyW = decide (2 ^ qtyW ≤ sum.toNat) := by
      rw [← BitVec.testBit_toNat]
      refine Bits.testBit_top ?_
      zify
      omega
    rw [hbit]
    by_cases hbig : 2 ^ qtyW ≤ sum.toNat
    · rw [if_pos (decide_eq_true hbig), BitVec.toNat_allOnes, Nat.cast_sub (Nat.one_le_two_pow)]
      have hbig' : (2 : ℤ) ^ qtyW ≤ sum.toNat := by exact_mod_cast hbig
      push_cast
      omega
    · rw [if_neg (by simpa using hbig), BitVec.toNat_setWidth,
        Nat.mod_eq_of_lt (not_le.mp hbig), hnat]
      have hbig' : (sum.toNat : ℤ) < 2 ^ qtyW := by exact_mod_cast not_le.mp hbig
      omega

/-! ### The pipeline -/

/-- The RAM once the update in S1 has been written. -/
def settled (b : BookBank wselW qtyW) : LevelAddr wselW → BitVec qtyW :=
  if b.s1Valid then Function.update b.levelQty b.s1Addr b.newQty else b.levelQty

/-- The reference book, with the update that is accepted, if one is. -/
def follow (r : RefBook wselW) (b : BookBank wselW qtyW) (i : BookIn wselW qtyW) : RefBook wselW :=
  if b.updGo i then r.apply qtyW i.updSide i.updIdx i.updDelta.toInt else r

/-- **The invariant of the pipeline.** Until the RAM is cleared, nothing is accepted. From then on
the bitmaps are those of the RAM, and the reference book is the RAM with the update in S1. -/
structure Inv (r : RefBook wselW) (b : BookBank wselW qtyW) : Prop where
  idle : b.clrBusy = true → b.s1Valid = false ∧ r = fun _ _ => 0
  cleared : b.clrBusy = true → ∀ a < b.clrAddr, b.levelQty a = 0
  empty : b.clrBusy = true → ∀ l, b.bidMap l = false ∧ b.askMap l = false
  current : b.s1Valid = true → b.curQty = b.levelQty b.s1Addr
  bidMap : b.clrBusy = false → ∀ l, b.bidMap l = (b.levelQty (BitVec.cons false l) != 0)
  askMap : b.clrBusy = false → ∀ l, b.askMap l = (b.levelQty (BitVec.cons true l) != 0)
  book : b.clrBusy = false → ∀ s l, r s l = (b.settled (BitVec.cons s l)).toNat

variable {b : BookBank wselW qtyW} {i : BookIn wselW qtyW} {r : RefBook wselW}

/-- A RAM address is a side and a level. -/
theorem cons_eq_iff {a : LevelAddr wselW} {s : Bool} {l : BitVec (wselW + 5)} :
    BitVec.cons s l = a ↔ s = a.msb ∧ l = a.setWidth (wselW + 5) := by
  constructor
  · rintro rfl
    exact ⟨(BitVec.msb_cons).symm, (BitVec.setWidth_cons).symm⟩
  · rintro ⟨rfl, rfl⟩
    exact BitVec.cons_msb_setWidth a

/-- After a reset. -/
theorem inv_reset (b : BookBank wselW qtyW) (i : BookIn wselW qtyW) :
    Inv (fun _ _ => 0) (edge true b i) := by
  refine ⟨fun _ => ⟨rfl, rfl⟩, fun _ a ha => ?_, fun _ l => ⟨rfl, rfl⟩, fun h => ?_, fun h => ?_,
    fun h => ?_, fun h => ?_⟩
  · have hlt : a < 0 := ha
    exact absurd hlt (BitVec.not_lt_zero)
  all_goals exact absurd h (by simp [edge])

/-- While the RAM is being cleared. -/
theorem Inv.clear (h : Inv r b) (hbusy : b.clrBusy = true) :
    Inv (follow r b i) (edge false b i) := by
  have hgo : b.updGo i = false := by simp [updGo, ready, hbusy]
  have hfollow : follow r b i = r := by simp [follow, hgo]
  obtain ⟨hs1, hr⟩ := h.idle hbusy
  have hs1' : (edge false b i).s1Valid = false := by simp [edge, hgo]
  have hmap : ∀ l, (edge false b i).bidMap l = false ∧ (edge false b i).askMap l = false := by
    intro l
    simpa [edge, hs1] using h.empty hbusy l
  have hqty : (edge false b i).levelQty = Function.update b.levelQty b.clrAddr 0 := by
    simp [edge, hbusy]
  have hzero : ∀ a, a ≤ b.clrAddr → (edge false b i).levelQty a = 0 := by
    intro a ha
    rw [hqty]
    by_cases heq : a = b.clrAddr
    · rw [heq, Function.update_self]
    · rw [Function.update_of_ne heq]
      refine h.cleared hbusy a ?_
      rw [BitVec.lt_def]
      have hne : a.toNat ≠ b.clrAddr.toNat := fun hn => heq (BitVec.eq_of_toNat_eq hn)
      have hle : a.toNat ≤ b.clrAddr.toNat := ha
      omega
  rw [hfollow]
  -- the last address ends the clearing, and the address does not wrap around before
  by_cases hlast : b.clrAddr = BitVec.allOnes _
  · have hdone : (edge false b i).clrBusy = false := by simp [edge, hbusy, hlast]
    have hall : ∀ a, (edge false b i).levelQty a = 0 := by
      intro a
      refine hzero a ?_
      rw [hlast, BitVec.le_def, BitVec.toNat_allOnes]
      have hlt := a.isLt
      omega
    refine ⟨fun hc => ?_, fun hc => ?_, fun hc => ?_, fun hc => ?_, fun _ l => ?_, fun _ l => ?_,
      fun _ s l => ?_⟩
    · exact absurd (hdone.symm.trans hc) (by decide)
    · exact absurd (hdone.symm.trans hc) (by decide)
    · exact absurd (hdone.symm.trans hc) (by decide)
    · exact absurd (hs1'.symm.trans hc) (by decide)
    · rw [(hmap l).1, hall]
      simp
    · rw [(hmap l).2, hall]
      simp
    · rw [settled, hs1', if_neg Bool.false_ne_true, hall, hr]
      simp
  · have hgoing : (edge false b i).clrBusy = true := by simp [edge, hbusy, hlast]
    refine ⟨fun _ => ⟨hs1', hr⟩, fun _ a ha => ?_, fun _ => hmap, fun hc => ?_, fun hc => ?_,
      fun hc => ?_, fun hc => ?_⟩
    · refine hzero a ?_
      have hnext : (edge false b i).clrAddr = b.clrAddr + 1 := by simp [edge, hbusy]
      have hne : b.clrAddr.toNat ≠ 2 ^ (wselW + 5 + 1) - 1 := by
        intro heq
        refine hlast (BitVec.eq_of_toNat_eq ?_)
        rw [heq, BitVec.toNat_allOnes]
      have hlt := b.clrAddr.isLt
      have hsucc : (b.clrAddr + 1).toNat = b.clrAddr.toNat + 1 := by
        rw [BitVec.toNat_add_of_lt]
        · simp
        · simp only [BitVec.ofNat_eq_ofNat, BitVec.toNat_ofNat]
          rw [Nat.mod_eq_of_lt (Nat.one_lt_two_pow (by omega))]
          omega
      rw [hnext, BitVec.lt_def, hsucc] at ha
      rw [BitVec.le_def]
      omega
    · exact absurd (hs1'.symm.trans hc) (by decide)
    all_goals exact absurd (hgoing.symm.trans hc) (by decide)

/-- The RAM after an edge. -/
theorem levelQty_edge (hbusy : b.clrBusy = false) : (edge false b i).levelQty = b.settled := by
  simp [edge, hbusy, settled]

/-- **The forward path**: the quantity in S1 is that of the RAM. -/
theorem curQty_edge (hbusy : b.clrBusy = false) :
    (edge false b i).curQty = (edge false b i).levelQty (edge false b i).s1Addr := by
  rw [levelQty_edge hbusy]
  have hcur : (edge false b i).curQty =
      if b.s1Valid && b.s1Addr == b.rdAddr i then b.newQty else b.levelQty (b.rdAddr i) := rfl
  have haddr : (edge false b i).s1Addr = b.rdAddr i := rfl
  rw [hcur, haddr, settled]
  cases hv : b.s1Valid with
  | false => simp
  | true =>
    by_cases heq : b.s1Addr = b.rdAddr i
    · simp [heq]
    · rw [if_pos rfl, Function.update_of_ne (Ne.symm heq)]
      simp [heq]

/-- The bitmap of the bids after an edge. -/
theorem bidMap_edge (h : Inv r b) (hbusy : b.clrBusy = false) (l : BitVec (wselW + 5)) :
    (edge false b i).bidMap l = ((edge false b i).levelQty (BitVec.cons false l) != 0) := by
  rw [levelQty_edge hbusy, settled]
  cases hv : b.s1Valid with
  | false =>
    have hkeep : (edge false b i).bidMap l = b.bidMap l := by simp [edge, hv]
    rw [hkeep, h.bidMap hbusy, if_neg Bool.false_ne_true]
  | true =>
    rw [if_pos rfl]
    by_cases heq : BitVec.cons false l = b.s1Addr
    · obtain ⟨hside, hl⟩ := cons_eq_iff.mp heq
      have hset : (edge false b i).bidMap l = (b.newQty != 0) := by
        simp [edge, hv, ← hside, hl]
      rw [hset, heq, Function.update_self]
    · have hkeep : (edge false b i).bidMap l = b.bidMap l := by
        by_cases hside : b.s1Addr.msb = true
        · simp [edge, hv, hside]
        · have hne : l ≠ b.s1Addr.setWidth (wselW + 5) := by
            intro hl
            exact heq (cons_eq_iff.mpr ⟨(Bool.eq_false_iff.mpr hside).symm, hl⟩)
          simp [edge, hv, hside, Function.update_of_ne hne]
      rw [hkeep, h.bidMap hbusy, Function.update_of_ne heq]

/-- The bitmap of the asks after an edge. -/
theorem askMap_edge (h : Inv r b) (hbusy : b.clrBusy = false) (l : BitVec (wselW + 5)) :
    (edge false b i).askMap l = ((edge false b i).levelQty (BitVec.cons true l) != 0) := by
  rw [levelQty_edge hbusy, settled]
  cases hv : b.s1Valid with
  | false =>
    have hkeep : (edge false b i).askMap l = b.askMap l := by simp [edge, hv]
    rw [hkeep, h.askMap hbusy, if_neg Bool.false_ne_true]
  | true =>
    rw [if_pos rfl]
    by_cases heq : BitVec.cons true l = b.s1Addr
    · obtain ⟨hside, hl⟩ := cons_eq_iff.mp heq
      have hset : (edge false b i).askMap l = (b.newQty != 0) := by
        simp [edge, hv, ← hside, hl]
      rw [hset, heq, Function.update_self]
    · have hkeep : (edge false b i).askMap l = b.askMap l := by
        by_cases hside : b.s1Addr.msb = true
        · have hne : l ≠ b.s1Addr.setWidth (wselW + 5) := by
            intro hl
            exact heq (cons_eq_iff.mpr ⟨hside.symm, hl⟩)
          simp [edge, hv, hside, Function.update_of_ne hne]
        · simp [edge, hv, hside]
      rw [hkeep, h.askMap hbusy, Function.update_of_ne heq]

/-- The reference book after an edge. -/
theorem book_edge (h : Inv r b) (hbusy : b.clrBusy = false) (s : Bool) (l : BitVec (wselW + 5)) :
    follow r b i s l = ((edge false b i).settled (BitVec.cons s l)).toNat := by
  have hmem : ∀ s l, r s l = ((edge false b i).levelQty (BitVec.cons s l)).toNat := by
    intro s l
    rw [levelQty_edge hbusy]
    exact h.book hbusy s l
  have hs1 : (edge false b i).s1Valid = b.updGo i := rfl
  rw [follow, settled, hs1]
  cases hgo : b.updGo i with
  | false =>
    rw [if_neg Bool.false_ne_true, if_neg Bool.false_ne_true]
    exact hmem s l
  | true =>
    have haddr : (edge false b i).s1Addr = BitVec.cons i.updSide i.updIdx := if_pos hgo
    have hnew : (edge false b i).newQty =
        applyDelta ((edge false b i).levelQty (BitVec.cons i.updSide i.updIdx)) i.updDelta := by
      rw [newQty, curQty_edge hbusy, haddr]
      rfl
    rw [if_pos rfl, if_pos rfl, haddr, RefBook.apply]
    by_cases heq : s = i.updSide ∧ l = i.updIdx
    · obtain ⟨rfl, rfl⟩ := heq
      rw [if_pos ⟨rfl, rfl⟩, Function.update_self, hnew, hmem, ← toNat_applyDelta,
        Int.toNat_natCast]
    · have hne : BitVec.cons s l ≠ BitVec.cons i.updSide i.updIdx := by
        intro hc
        obtain ⟨hs, hl⟩ := cons_eq_iff.mp hc
        rw [BitVec.msb_cons] at hs
        rw [BitVec.setWidth_cons] at hl
        exact heq ⟨hs, hl⟩
      rw [if_neg heq, Function.update_of_ne hne]
      exact hmem s l

/-- **Every edge keeps the invariant.** -/
theorem Inv.edge (h : Inv r b) : Inv (follow r b i) (edge false b i) := by
  cases hbusy : b.clrBusy with
  | true => exact h.clear hbusy
  | false =>
    have hdone : (BookBank.edge false b i).clrBusy = false := by simp [BookBank.edge, hbusy]
    refine ⟨fun hc => ?_, fun hc => ?_, fun hc => ?_, fun _ => curQty_edge hbusy,
      fun _ => bidMap_edge h hbusy, fun _ => askMap_edge h hbusy, fun _ => book_edge h hbusy⟩
    all_goals exact absurd (hdone.symm.trans hc) (by decide)

/-- The bank after a reset and `n` more edges. -/
def afterReset (b : BookBank wselW qtyW) (i : BookIn wselW qtyW) (inp : ℕ → BookIn wselW qtyW)
    (n : ℕ) : BookBank wselW qtyW :=
  Clocked.after (BookBank.edge false) (BookBank.edge true b i) inp n

/-- An update is accepted in cycle `n`. -/
def accepts (b : BookBank wselW qtyW) (i : BookIn wselW qtyW) (inp : ℕ → BookIn wselW qtyW)
    (n : ℕ) : Bool := (afterReset b i inp n).updGo (inp n)

/-- The reference book of the updates accepted before cycle `n`. -/
def refBook (b : BookBank wselW qtyW) (i : BookIn wselW qtyW) (inp : ℕ → BookIn wselW qtyW) :
    ℕ → RefBook wselW
  | 0 => fun _ _ => 0
  | n + 1 => follow (refBook b i inp n) (afterReset b i inp n) (inp n)

theorem inv_afterReset (b : BookBank wselW qtyW) (i : BookIn wselW qtyW)
    (inp : ℕ → BookIn wselW qtyW) (n : ℕ) : Inv (refBook b i inp n) (afterReset b i inp n) := by
  induction n with
  | zero => exact inv_reset b i
  | succ n ih => exact ih.edge

/-- The RAM is cleared one word for each edge. -/
theorem clearing (b : BookBank wselW qtyW) (i : BookIn wselW qtyW) (inp : ℕ → BookIn wselW qtyW)
    {n : ℕ} (hn : n < 2 ^ (wselW + 5 + 1)) :
    (afterReset b i inp n).clrBusy = true ∧
      (afterReset b i inp n).clrAddr = BitVec.ofNat (wselW + 5 + 1) n := by
  induction n with
  | zero => exact ⟨rfl, rfl⟩
  | succ n ih =>
    obtain ⟨hbusy, haddr⟩ := ih (Nat.lt_of_succ_lt hn)
    have hlast : BitVec.ofNat (wselW + 5 + 1) n ≠ BitVec.allOnes _ := by
      intro heq
      have hnat := congrArg BitVec.toNat heq
      rw [BitVec.toNat_ofNat, Nat.mod_eq_of_lt (Nat.lt_of_succ_lt hn), BitVec.toNat_allOnes] at hnat
      omega
    change (BookBank.edge false (afterReset b i inp n) (inp n)).clrBusy = true ∧
      (BookBank.edge false (afterReset b i inp n) (inp n)).clrAddr = _
    constructor
    · simp [BookBank.edge, hbusy, haddr, hlast]
    · simp [BookBank.edge, hbusy, haddr, BitVec.ofNat_add]

/-- **Readiness.** The bank takes updates from the cycle on in which its `2 * LEVELS` words have
been cleared. -/
theorem ready_iff (b : BookBank wselW qtyW) (i : BookIn wselW qtyW) (inp : ℕ → BookIn wselW qtyW)
    (n : ℕ) : (afterReset b i inp n).ready = true ↔ 2 ^ (wselW + 5 + 1) ≤ n := by
  constructor
  · intro hready
    by_contra hlt
    have hbusy := (clearing b i inp (not_le.mp hlt)).1
    rw [ready, hbusy] at hready
    cases hready
  · intro hn
    induction n, hn using Nat.le_induction with
    | base =>
      have hpos : 0 < 2 ^ (wselW + 5 + 1) := Nat.two_pow_pos _
      obtain ⟨n, hn⟩ : ∃ n, 2 ^ (wselW + 5 + 1) = n + 1 := ⟨_, (Nat.succ_pred hpos.ne').symm⟩
      obtain ⟨hbusy, haddr⟩ := clearing b i inp (n := n) (by omega)
      have hlast : BitVec.ofNat (wselW + 5 + 1) n = BitVec.allOnes _ := by
        refine BitVec.eq_of_toNat_eq ?_
        rw [BitVec.toNat_ofNat, Nat.mod_eq_of_lt (by omega), BitVec.toNat_allOnes, hn,
          Nat.add_sub_cancel]
      rw [hn]
      change (BookBank.edge false (afterReset b i inp n) (inp n)).ready = true
      simp [ready, BookBank.edge, hbusy, haddr, hlast]
    | succ n hn ih =>
      have hbusy : (afterReset b i inp n).clrBusy = false := by simpa [ready] using ih
      change (BookBank.edge false (afterReset b i inp n) (inp n)).ready = true
      simp [ready, BookBank.edge, hbusy]

/-- A level is occupied in the bitmap just when the reference book has a quantity there. -/
theorem occupied_iff {map : BitVec (wselW + 5) → Bool} {q : BitVec (wselW + 5) → BitVec qtyW}
    {f : BitVec (wselW + 5) → ℕ} (hmap : ∀ l, map l = (q l != 0)) (hf : ∀ l, f l = (q l).toNat) :
    {l | map l = true} = {l | f l ≠ 0} := by
  ext l
  simp only [Set.mem_ofPred_eq, hmap, hf, bne_iff_ne, ne_eq]
  rw [← BitVec.toNat_inj]
  rfl

end BookBank

/-- **The true top of the book.** After a reset, and whatever comes in from then on: `tob_valid` is
high in cycle `n + 4` just when an update is accepted in cycle `n`, and then the outputs are the top
of the book of all updates accepted up to cycle `n`. -/
theorem top_of_book {wselW qtyW : ℕ} (b : BookBank wselW qtyW) (i : BookIn wselW qtyW)
    (inp : ℕ → BookIn wselW qtyW) :
    (∀ n < 4, (b.afterReset i inp n).tobValid = false) ∧
      ∀ n, (b.afterReset i inp (n + 4)).tobValid = b.accepts i inp n ∧
        (b.accepts i inp n = true →
          (b.refBook i inp (n + 1)).Shown (b.afterReset i inp (n + 4))) := by
  refine ⟨fun n hn => ?_, fun n => ⟨rfl, fun hgo => ?_⟩⟩
  · interval_cases n <;> rfl
  · have hbusy : (b.afterReset i inp n).clrBusy = false := by
      have hready := (Bool.and_eq_true_iff.mp hgo).2
      simpa [BookBank.ready] using hready
    have hbusy₁ : (b.afterReset i inp (n + 1)).clrBusy = false := by
      change (BookBank.edge false (b.afterReset i inp n) (inp n)).clrBusy = false
      simp [BookBank.edge, hbusy]
    have hbusy₂ : (b.afterReset i inp (n + 2)).clrBusy = false := by
      change (BookBank.edge false (b.afterReset i inp (n + 1)) (inp (n + 1))).clrBusy = false
      simp [BookBank.edge, hbusy₁]
    have hinv₁ := BookBank.inv_afterReset b i inp (n + 1)
    have hinv₂ := BookBank.inv_afterReset b i inp (n + 2)
    have hmem : (b.afterReset i inp (n + 2)).levelQty = (b.afterReset i inp (n + 1)).settled :=
      BookBank.levelQty_edge hbusy₁
    have hbook : ∀ s l, b.refBook i inp (n + 1) s l =
        ((b.afterReset i inp (n + 2)).levelQty (BitVec.cons s l)).toNat := by
      rw [hmem]
      exact hinv₁.book hbusy₁
    have hbids := BookBank.occupied_iff (hinv₂.bidMap hbusy₂) (hbook false)
    have hasks := BookBank.occupied_iff (hinv₂.askMap hbusy₂) (hbook true)
    refine ⟨?_, fun hp => ?_, ?_, fun hp => ?_⟩
    · change BookBank.present (b.afterReset i inp (n + 2)).bidMap = true ↔ _
      rw [BookBank.present_iff]
      exact iff_of_eq (congrArg Set.Nonempty hbids)
    · rw [← hbids]
      exact BookBank.isGreatest_best hp
    · change BookBank.present (b.afterReset i inp (n + 2)).askMap = true ↔ _
      rw [BookBank.present_iff]
      exact iff_of_eq (congrArg Set.Nonempty hasks)
    · rw [← hasks]
      exact BookBank.isLeast_bestLow hp

end Fmma
