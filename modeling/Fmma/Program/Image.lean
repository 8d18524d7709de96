import Fmma.Program.Source
import Fmma.Protocol

/-!
# The program images

The words the loader writes: `fpga_program.h` for `trading.asm`, and what the assembler makes
of `market_maker.asm`. Both are checked against the sources, by evaluating the assembler.
-/

namespace Fmma

open Program

/-- `fpga_program.h`: the image of `trading.asm`. -/
def tradingImage : List Word :=
  [
    0x00000030, 0x0000F101, 0x0001F200, 0x0001F340, 0x00000939, 0x00000B3B, 0x00000C3C,
    0x0001F40E, 0x00004D04, 0x0001F40B, 0x00004E04, 0x00000737, 0x0001F441, 0x00004744,
    0x0001F442, 0x00004744, 0x0001F443, 0x00004744, 0x0001F444, 0x00004D44, 0x0001F446,
    0x00004744, 0x0001F448, 0x00004744, 0x0001F449, 0x00004744, 0x0000F701, 0x0001F445,
    0x00004744, 0x0000F80A, 0x00009803, 0x0000F707, 0x000008B7, 0x0000C175, 0x0000F702,
    0x0001F447, 0x00004744, 0x0000FF2E, 0x00000C51, 0x00004C43, 0x0001F40A, 0x00004804,
    0x000008B0, 0x0000C167, 0x00000451, 0x00004804, 0x000008BE, 0x0000C00D, 0x00000EF8,
    0x0001F40C, 0x00004804, 0x0001F40D, 0x00004404, 0x000008B1, 0x0000C103, 0x00000D54,
    0x0000CE02, 0x00000D94, 0x0001F444, 0x00004D44, 0x00004702, 0x000007BB, 0x0000C0E8,
    0x000008F7, 0x00000811, 0x000008B0, 0x0000C1E4, 0x000004F2, 0x00000451, 0x00004504,
    0x00000451, 0x00004604, 0x00004802, 0x000008B7, 0x0000C1DC, 0x00000BF7, 0x000005B0,
    0x0000C0D9, 0x000006B0, 0x0000C0D7, 0x000007F5, 0x00000756, 0x000009B0, 0x0000C00C,
    0x0001F405, 0x00004804, 0x00000858, 0x00000AF9, 0x00000A98, 0x000007BA, 0x0000C607,
    0x00000AF9, 0x00000A58, 0x00000AB7, 0x0000C60F, 0x000009F7, 0x00004ECF, 0x000009F7,
    0x0001F407, 0x00004804, 0x000008B0, 0x0000C024, 0x0001F406, 0x00004804, 0x00000DB8,
    0x0000C602, 0x0000CE1D, 0x0000F701, 0x0000CE0F, 0x000009F7, 0x0001F407, 0x00004804,
    0x000008B0, 0x0000C018, 0x0001F406, 0x00004804, 0x00000A3A, 0x00000A98, 0x00000ABD,
    0x0000C602, 0x0000CE0F, 0x0000F702, 0x0000CE01, 0x0001F441, 0x00004744, 0x0001F442,
    0x00004B44, 0x0000F701, 0x0001F445, 0x00004744, 0x0001F443, 0x00004804, 0x00000851,
    0x00004844, 0x00004ECF, 0x0000F704, 0x0000CE02, 0x0000F708, 0x00000751, 0x0001F445,
    0x00004744, 0x0001F446, 0x00004804, 0x00000851, 0x00004844, 0x00004ECF, 0x00000838,
    0x00004844, 0x0000F408, 0x00004EC4, 0x00000C51, 0x00004C43, 0x0000F49E, 0x00004EC4]

/-- The image of `market_maker.asm`. -/
def marketMakerImage : List Word :=
  [
    0x00000030, 0x0000F101, 0x0001F200, 0x0001F340, 0x00000B3B, 0x00000C3C, 0x00000939,
    0x00000A3A, 0x0001F40E, 0x00004D04, 0x0001F40B, 0x00004E04, 0x00000737, 0x0001F441,
    0x00004744, 0x0001F442, 0x00004744, 0x0001F443, 0x00004744, 0x0001F446, 0x00004744,
    0x0001F448, 0x00004744, 0x0001F449, 0x00004744, 0x0001F444, 0x00004D44, 0x0000F701,
    0x0001F445, 0x00004744, 0x0000F80A, 0x00009803, 0x0000F707, 0x000008B7, 0x0000C003,
    0x0000F4B6, 0x00004EC4, 0x0000F840, 0x0000881F, 0x0000F720, 0x000008B7, 0x0000C003,
    0x0000F4B6, 0x00004EC4, 0x0000F702, 0x0001F447, 0x00004744, 0x0000FF38, 0x00000C51,
    0x00004C43, 0x0001F40A, 0x00004804, 0x000008B0, 0x0000C175, 0x00000451, 0x00004804,
    0x000008BE, 0x0000C00D, 0x00000EF8, 0x0001F40C, 0x00004804, 0x0001F40D, 0x00004404,
    0x000008B1, 0x0000C103, 0x00000D54, 0x0000CE02, 0x00000D94, 0x0001F444, 0x00004D44,
    0x00004702, 0x000007BB, 0x0000C0E8, 0x000008F7, 0x00000811, 0x000008B0, 0x0000C1E4,
    0x000004F2, 0x00000451, 0x00004504, 0x00000451, 0x00004604, 0x00004802, 0x000008B7,
    0x0000C1DC, 0x00000BF7, 0x000005B0, 0x0000C0D9, 0x000006B0, 0x0000C0D7, 0x000009B0,
    0x0000C009, 0x000007F5, 0x00000757, 0x000007BA, 0x0000C727, 0x000007F6, 0x00000757,
    0x000009B7, 0x0000C718, 0x000009F5, 0x00000956, 0x00000AF9, 0x0001F409, 0x00004704,
    0x000007ED, 0x00000757, 0x0001F408, 0x00004804, 0x00000858, 0x00000998, 0x00000997,
    0x00000A58, 0x00000A97, 0x000007F9, 0x0000871F, 0x0001F448, 0x00004744, 0x000007FA,
    0x0000871F, 0x0001F449, 0x00004744, 0x00004ECF, 0x0001F407, 0x00004804, 0x000008B0,
    0x0000C023, 0x0001F406, 0x00004804, 0x00000DB8, 0x0000C602, 0x0000CE1C, 0x0000F701,
    0x0000CE0E, 0x0001F407, 0x00004804, 0x000008B0, 0x0000C018, 0x0001F406, 0x00004804,
    0x00000737, 0x00000798, 0x000007BD, 0x0000C602, 0x0000CE0F, 0x0000F702, 0x0000CE01,
    0x0001F441, 0x00004744, 0x0001F442, 0x00004B44, 0x0000F701, 0x0001F445, 0x00004744,
    0x0001F443, 0x00004804, 0x00000851, 0x00004844, 0x00004ECF, 0x0000F704, 0x0000CE02,
    0x0000F708, 0x00000751, 0x0001F445, 0x00004744, 0x0001F446, 0x00004804, 0x00000851,
    0x00004844, 0x00004ECF, 0x00000838, 0x00004844, 0x0000F408, 0x00004EC4, 0x00000C51,
    0x00004C43, 0x0000F4B6, 0x00004EC4]

/-- `fpga_program.lst`: the instructions of `trading.asm`. -/
def tradingListing : List Decoded :=
  [
    .rtype (some .XOR) 0 0, .itype (some .MOV) 1 1, .itype (some .MOV) 2 256,
    .itype (some .MOV) 3 320, .rtype (some .XOR) 9 9, .rtype (some .XOR) 11 11,
    .rtype (some .XOR) 12 12, .itype (some .MOV) 4 270, .load 13 4, .itype (some .MOV) 4 267,
    .load 14 4, .rtype (some .XOR) 7 7, .itype (some .MOV) 4 321, .stor 7 4,
    .itype (some .MOV) 4 322, .stor 7 4, .itype (some .MOV) 4 323, .stor 7 4,
    .itype (some .MOV) 4 324, .stor 13 4, .itype (some .MOV) 4 326, .stor 7 4,
    .itype (some .MOV) 4 328, .stor 7 4, .itype (some .MOV) 4 329, .stor 7 4,
    .itype (some .MOV) 7 1, .itype (some .MOV) 4 325, .stor 7 4, .itype (some .MOV) 8 10,
    .itype (some .SUB) 8 3, .itype (some .MOV) 7 7, .rtype (some .CMP) 8 7, .branch 1 117,
    .itype (some .MOV) 7 2, .itype (some .MOV) 4 327, .stor 7 4, .itype (some .MOV) 15 46,
    .rtype (some .ADD) 12 1, .stor 12 3, .itype (some .MOV) 4 266, .load 8 4,
    .rtype (some .CMP) 8 0, .branch 1 103, .rtype (some .ADD) 4 1, .load 8 4,
    .rtype (some .CMP) 8 14, .branch 0 13, .rtype (some .MOV) 14 8, .itype (some .MOV) 4 268,
    .load 8 4, .itype (some .MOV) 4 269, .load 4 4, .rtype (some .CMP) 8 1, .branch 1 3,
    .rtype (some .ADD) 13 4, .branch 14 2, .rtype (some .SUB) 13 4, .itype (some .MOV) 4 324,
    .stor 13 4, .load 7 2, .rtype (some .CMP) 7 11, .branch 0 (-24), .rtype (some .MOV) 8 7,
    .rtype (some .AND) 8 1, .rtype (some .CMP) 8 0, .branch 1 (-28), .rtype (some .MOV) 4 2,
    .rtype (some .ADD) 4 1, .load 5 4, .rtype (some .ADD) 4 1, .load 6 4, .load 8 2,
    .rtype (some .CMP) 8 7, .branch 1 (-36), .rtype (some .MOV) 11 7, .rtype (some .CMP) 5 0,
    .branch 0 (-39), .rtype (some .CMP) 6 0, .branch 0 (-41), .rtype (some .MOV) 7 5,
    .rtype (some .ADD) 7 6, .rtype (some .CMP) 9 0, .branch 0 12, .itype (some .MOV) 4 261,
    .load 8 4, .rtype (some .ADD) 8 8, .rtype (some .MOV) 10 9, .rtype (some .SUB) 10 8,
    .rtype (some .CMP) 7 10, .branch 6 7, .rtype (some .MOV) 10 9, .rtype (some .ADD) 10 8,
    .rtype (some .CMP) 10 7, .branch 6 15, .rtype (some .MOV) 9 7, .jump 14 15,
    .rtype (some .MOV) 9 7, .itype (some .MOV) 4 263, .load 8 4, .rtype (some .CMP) 8 0,
    .branch 0 36, .itype (some .MOV) 4 262, .load 8 4, .rtype (some .CMP) 13 8, .branch 6 2,
    .branch 14 29, .itype (some .MOV) 7 1, .branch 14 15, .rtype (some .MOV) 9 7,
    .itype (some .MOV) 4 263, .load 8 4, .rtype (some .CMP) 8 0, .branch 0 24,
    .itype (some .MOV) 4 262, .load 8 4, .rtype (some .XOR) 10 10, .rtype (some .SUB) 10 8,
    .rtype (some .CMP) 10 13, .branch 6 2, .branch 14 15, .itype (some .MOV) 7 2, .branch 14 1,
    .itype (some .MOV) 4 321, .stor 7 4, .itype (some .MOV) 4 322, .stor 11 4,
    .itype (some .MOV) 7 1, .itype (some .MOV) 4 325, .stor 7 4, .itype (some .MOV) 4 323,
    .load 8 4, .rtype (some .ADD) 8 1, .stor 8 4, .jump 14 15, .itype (some .MOV) 7 4,
    .branch 14 2, .itype (some .MOV) 7 8, .rtype (some .ADD) 7 1, .itype (some .MOV) 4 325,
    .stor 7 4, .itype (some .MOV) 4 326, .load 8 4, .rtype (some .ADD) 8 1, .stor 8 4,
    .jump 14 15, .rtype (some .XOR) 8 8, .stor 8 4, .itype (some .MOV) 4 8, .jump 14 4,
    .rtype (some .ADD) 12 1, .stor 12 3, .itype (some .MOV) 4 158, .jump 14 4]

/-- The instructions of `market_maker.asm`. -/
def marketMakerListing : List Decoded :=
  [
    .rtype (some .XOR) 0 0, .itype (some .MOV) 1 1, .itype (some .MOV) 2 256,
    .itype (some .MOV) 3 320, .rtype (some .XOR) 11 11, .rtype (some .XOR) 12 12,
    .rtype (some .XOR) 9 9, .rtype (some .XOR) 10 10, .itype (some .MOV) 4 270, .load 13 4,
    .itype (some .MOV) 4 267, .load 14 4, .rtype (some .XOR) 7 7, .itype (some .MOV) 4 321,
    .stor 7 4, .itype (some .MOV) 4 322, .stor 7 4, .itype (some .MOV) 4 323, .stor 7 4,
    .itype (some .MOV) 4 326, .stor 7 4, .itype (some .MOV) 4 328, .stor 7 4,
    .itype (some .MOV) 4 329, .stor 7 4, .itype (some .MOV) 4 324, .stor 13 4,
    .itype (some .MOV) 7 1, .itype (some .MOV) 4 325, .stor 7 4, .itype (some .MOV) 8 10,
    .itype (some .SUB) 8 3, .itype (some .MOV) 7 7, .rtype (some .CMP) 8 7, .branch 0 3,
    .itype (some .MOV) 4 182, .jump 14 4, .itype (some .MOV) 8 64, .itype (some .LSH) 8 31,
    .itype (some .MOV) 7 32, .rtype (some .CMP) 8 7, .branch 0 3, .itype (some .MOV) 4 182,
    .jump 14 4, .itype (some .MOV) 7 2, .itype (some .MOV) 4 327, .stor 7 4,
    .itype (some .MOV) 15 56, .rtype (some .ADD) 12 1, .stor 12 3, .itype (some .MOV) 4 266,
    .load 8 4, .rtype (some .CMP) 8 0, .branch 1 117, .rtype (some .ADD) 4 1, .load 8 4,
    .rtype (some .CMP) 8 14, .branch 0 13, .rtype (some .MOV) 14 8, .itype (some .MOV) 4 268,
    .load 8 4, .itype (some .MOV) 4 269, .load 4 4, .rtype (some .CMP) 8 1, .branch 1 3,
    .rtype (some .ADD) 13 4, .branch 14 2, .rtype (some .SUB) 13 4, .itype (some .MOV) 4 324,
    .stor 13 4, .load 7 2, .rtype (some .CMP) 7 11, .branch 0 (-24), .rtype (some .MOV) 8 7,
    .rtype (some .AND) 8 1, .rtype (some .CMP) 8 0, .branch 1 (-28), .rtype (some .MOV) 4 2,
    .rtype (some .ADD) 4 1, .load 5 4, .rtype (some .ADD) 4 1, .load 6 4, .load 8 2,
    .rtype (some .CMP) 8 7, .branch 1 (-36), .rtype (some .MOV) 11 7, .rtype (some .CMP) 5 0,
    .branch 0 (-39), .rtype (some .CMP) 6 0, .branch 0 (-41), .rtype (some .CMP) 9 0, .branch 0 9,
    .rtype (some .MOV) 7 5, .rtype (some .ADD) 7 7, .rtype (some .CMP) 7 10, .branch 7 39,
    .rtype (some .MOV) 7 6, .rtype (some .ADD) 7 7, .rtype (some .CMP) 9 7, .branch 7 24,
    .rtype (some .MOV) 9 5, .rtype (some .ADD) 9 6, .rtype (some .MOV) 10 9,
    .itype (some .MOV) 4 265, .load 7 4, .rtype (some .MUL) 7 13, .rtype (some .ADD) 7 7,
    .itype (some .MOV) 4 264, .load 8 4, .rtype (some .ADD) 8 8, .rtype (some .SUB) 9 8,
    .rtype (some .SUB) 9 7, .rtype (some .ADD) 10 8, .rtype (some .SUB) 10 7,
    .rtype (some .MOV) 7 9, .itype (some .LSH) 7 31, .itype (some .MOV) 4 328, .stor 7 4,
    .rtype (some .MOV) 7 10, .itype (some .LSH) 7 31, .itype (some .MOV) 4 329, .stor 7 4,
    .jump 14 15, .itype (some .MOV) 4 263, .load 8 4, .rtype (some .CMP) 8 0, .branch 0 35,
    .itype (some .MOV) 4 262, .load 8 4, .rtype (some .CMP) 13 8, .branch 6 2, .branch 14 28,
    .itype (some .MOV) 7 1, .branch 14 14, .itype (some .MOV) 4 263, .load 8 4,
    .rtype (some .CMP) 8 0, .branch 0 24, .itype (some .MOV) 4 262, .load 8 4,
    .rtype (some .XOR) 7 7, .rtype (some .SUB) 7 8, .rtype (some .CMP) 7 13, .branch 6 2,
    .branch 14 15, .itype (some .MOV) 7 2, .branch 14 1, .itype (some .MOV) 4 321, .stor 7 4,
    .itype (some .MOV) 4 322, .stor 11 4, .itype (some .MOV) 7 1, .itype (some .MOV) 4 325,
    .stor 7 4, .itype (some .MOV) 4 323, .load 8 4, .rtype (some .ADD) 8 1, .stor 8 4,
    .jump 14 15, .itype (some .MOV) 7 4, .branch 14 2, .itype (some .MOV) 7 8,
    .rtype (some .ADD) 7 1, .itype (some .MOV) 4 325, .stor 7 4, .itype (some .MOV) 4 326,
    .load 8 4, .rtype (some .ADD) 8 1, .stor 8 4, .jump 14 15, .rtype (some .XOR) 8 8, .stor 8 4,
    .itype (some .MOV) 4 8, .jump 14 4, .rtype (some .ADD) 12 1, .stor 12 3,
    .itype (some .MOV) 4 182, .jump 14 4]

/-- The two strategy programs the repository ships. -/
inductive Strategy
  | trading
  | marketMaker
  deriving DecidableEq, Repr

namespace Strategy

/-- The assembly source of a strategy. -/
def source : Strategy → List (Assembler.Line Symbol)
  | trading => tradingAsm
  | marketMaker => marketMakerAsm

/-- The words the loader writes at `PROGRAM_BASE`. -/
def image : Strategy → List Word
  | trading => tradingImage
  | marketMaker => marketMakerImage

/-- The instructions of a strategy, from `PROGRAM_BASE` on. -/
def listing : Strategy → List Decoded
  | trading => tradingListing
  | marketMaker => marketMakerListing

/-- The listing is what the words of the image decode to. -/
theorem map_decode_image (s : Strategy) : s.image.map decode = s.listing := by
  cases s <;> decide +kernel

/-- **The images are the assembled sources.** -/
theorem assemble_source (s : Strategy) : Assembler.assemble s.source 8 = .ok s.image := by
  cases s <;> decide +kernel

/-- The image fits the program area: it ends before the input block. -/
theorem length_image_le (s : Strategy) : s.image.length ≤ 248 := by
  cases s <;> decide +kernel

/-- The instruction at a word index, with the image in place and zero words around it. -/
def code (s : Strategy) (p : Addr) : Decoded :=
  (List.replicate 8 Decoded.halt ++ s.listing).getD p.toNat .halt

/-- The image is in the RAM, from `PROGRAM_BASE` on. -/
def Loaded (s : Strategy) (mem : Addr → Word) : Prop :=
  ∀ i (hi : i < s.image.length), mem (BitVec.ofNat 10 (8 + i)) = s.image[i]

/-- The word index is one of the image's. -/
def InImage (s : Strategy) (p : Addr) : Prop :=
  8 ≤ p.toNat ∧ p.toNat < 8 + s.image.length

instance (s : Strategy) (p : Addr) : Decidable (s.InImage p) :=
  inferInstanceAs (Decidable (_ ∧ _))

/-- With the image loaded, the word at the PC decodes to the image's instruction. -/
theorem Loaded.decode_eq {s : Strategy} {mem : Addr → Word} (h : s.Loaded mem) {p : Addr}
    (hp : s.InImage p) : decode (mem p) = s.code p := by
  obtain ⟨hlo, hhi⟩ := hp
  have hi : p.toNat - 8 < s.image.length := by omega
  have hword := h (p.toNat - 8) hi
  have hadd : 8 + (p.toNat - 8) = p.toNat := by omega
  rw [hadd, BitVec.ofNat_toNat, BitVec.setWidth_eq] at hword
  have hget : (List.replicate 8 Decoded.halt ++ s.listing)[p.toNat]? =
      some (decode s.image[p.toNat - 8]) := by
    rw [List.getElem?_append_right (by simpa using hlo), List.length_replicate,
      ← map_decode_image, List.getElem?_map, List.getElem?_eq_getElem hi, Option.map_some]
  rw [hword, code, List.getD_eq_getElem?_getD, hget, Option.getD_some]

/-- A store outside the program area leaves the image in place. -/
theorem Loaded.update {s : Strategy} {mem : Addr → Word} (h : s.Loaded mem) {a : Addr}
    (ha : inputBase ≤ a) (v : Word) : s.Loaded (Function.update mem a v) := by
  intro i hi
  have hlen := s.length_image_le
  have hne : BitVec.ofNat 10 (8 + i) ≠ a := by
    rintro rfl
    have hbase : 256 ≤ (8 + i) % 1024 := by simpa [BitVec.le_def] using ha
    omega
  rw [Function.update_of_ne hne]
  exact h i hi

/-- A RAM with the image of a strategy in the program area. -/
def install (s : Strategy) (m : Addr → Word) (a : Addr) : Word :=
  if s.InImage a then s.image.getD (a.toNat - 8) 0 else m a

theorem loaded_install (s : Strategy) (m : Addr → Word) : s.Loaded (s.install m) := by
  intro i hi
  have hlen := s.length_image_le
  have hnat : (BitVec.ofNat 10 (8 + i)).toNat = 8 + i := by
    rw [BitVec.toNat_ofNat]
    omega
  have himage : s.InImage (BitVec.ofNat 10 (8 + i)) := by
    rw [InImage, hnat]
    omega
  rw [install, if_pos himage, hnat, Nat.add_sub_cancel_left, List.getD_eq_getElem?_getD,
    List.getElem?_eq_getElem hi, Option.getD_some]

/-- Installing an image leaves the shared blocks alone. -/
@[simp]
theorem install_shared (s : Strategy) (m : Addr → Word) {a : Addr} (ha : inputBase ≤ a) :
    s.install m a = m a := by
  have hlen := s.length_image_le
  have hbase : 256 ≤ a.toNat := ha
  refine if_neg ?_
  rintro ⟨-, hlt⟩
  omega

end Strategy

end Fmma
