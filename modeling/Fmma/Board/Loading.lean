import Fmma.Board

/-!
# An image while it is being stored

`write_program` stores the words of an image in ascending order, the entry word last. What that
gives is said here for any image that fits the program area: the words that are still missing are
still to be stored, and once the entry word is stored none are missing.
-/

namespace Fmma

namespace Loading

/-! ### Images -/

/-- The word index is one of the image's. -/
def InImage (image : List Word) (p : Addr) : Prop := 8 ≤ p.toNat ∧ p.toNat < 8 + image.length

instance (image : List Word) (p : Addr) : Decidable (InImage image p) :=
  inferInstanceAs (Decidable (_ ∧ _))

/-- The image is in the RAM, from `PROGRAM_BASE` on. -/
def Holds (image : List Word) (m : Addr → Word) : Prop :=
  ∀ i (hi : i < image.length), m (BitVec.ofNat 10 (8 + i)) = image[i]

/-- What is stored into the image's words are the image's words. -/
def Faithful (image : List Word) (todo : List (Addr × Word)) : Prop :=
  ∀ w ∈ todo, InImage image w.1 → image[w.1.toNat - 8]? = some w.2

/-- After a store to `PROGRAM_BASE` come only stores outside the image. -/
def EntryLast (image : List Word) : List (Addr × Word) → Prop
  | [] => True
  | w :: rest => (w.1 = programBase → ∀ u ∈ rest, ¬InImage image u.1) ∧ EntryLast image rest

/-- The words of the image that are not in the RAM are still to be stored. -/
def Covered (image : List Word) (m : Addr → Word) (todo : List (Addr × Word)) : Prop :=
  ∀ p, InImage image p → image[p.toNat - 8]? = some (m p) ∨ ∃ w ∈ todo, w.1 = p

variable {image : List Word} {m : Addr → Word} {a : Addr} {v : Word}
  {rest : List (Addr × Word)}

/-- The index of a word of the image. -/
theorem toNat_index (hlen : image.length ≤ 248) {i : ℕ} (hi : i < image.length) :
    (BitVec.ofNat 10 (8 + i)).toNat = 8 + i := by
  rw [BitVec.toNat_ofNat]
  omega

theorem inImage_index (hlen : image.length ≤ 248) {i : ℕ} (hi : i < image.length) :
    InImage image (BitVec.ofNat 10 (8 + i)) := by
  rw [InImage, toNat_index hlen hi]
  omega

/-- The shared blocks are outside the image. -/
theorem not_inImage (hlen : image.length ≤ 248) (ha : inputBase ≤ a) : ¬InImage image a := by
  rintro ⟨-, hlt⟩
  have hbase : 256 ≤ a.toNat := ha
  omega

/-- The image in the RAM. -/
theorem Holds.getElem? (h : Holds image m) (ha : InImage image a) :
    image[a.toNat - 8]? = some (m a) := by
  have hi : a.toNat - 8 < image.length := by
    have hlo := ha.1
    have hhi := ha.2
    omega
  have hword := h (a.toNat - 8) hi
  rw [Nat.add_sub_cancel' ha.1, BitVec.ofNat_toNat, BitVec.setWidth_eq] at hword
  rw [List.getElem?_eq_getElem hi, hword]

/-- A store outside the image leaves it in place. -/
theorem Holds.update (hlen : image.length ≤ 248) (h : Holds image m) (ha : ¬InImage image a)
    (v : Word) : Holds image (Function.update m a v) := by
  intro i hi
  have hne : BitVec.ofNat 10 (8 + i) ≠ a := by
    rintro rfl
    exact ha (inImage_index hlen hi)
  rw [Function.update_of_ne hne]
  exact h i hi

/-! ### The stores -/

/-- Nothing of the image is left to be stored. -/
theorem Covered.holds (hlen : image.length ≤ 248) (h : Covered image m rest)
    (hrest : ∀ w ∈ rest, ¬InImage image w.1) : Holds image m := by
  intro i hi
  rcases h _ (inImage_index hlen hi) with hword | ⟨w, hw, heq⟩
  · rw [toNat_index hlen hi, Nat.add_sub_cancel_left, List.getElem?_eq_getElem hi,
      Option.some.injEq] at hword
    exact hword.symm
  · exact absurd (heq ▸ inImage_index hlen hi) (hrest w hw)

/-- A store of the load keeps what is covered. -/
theorem Covered.store (h : Covered image m ((a, v) :: rest))
    (hf : Faithful image ((a, v) :: rest)) : Covered image (Function.update m a v) rest := by
  intro p hp
  by_cases hpa : p = a
  · subst hpa
    rw [Function.update_self]
    exact .inl (hf (p, v) List.mem_cons_self hp)
  · rw [Function.update_of_ne hpa]
    rcases h p hp with hword | ⟨w, hw, heq⟩
    · exact .inl hword
    · rcases List.mem_cons.mp hw with rfl | hw
      · exact absurd heq.symm hpa
      · exact .inr ⟨w, hw, heq⟩

/-- Storing a word of the image over itself. -/
theorem Holds.store (hlen : image.length ≤ 248) (h : Holds image m)
    (hf : Faithful image ((a, v) :: rest)) : Holds image (Function.update m a v) := by
  by_cases ha : InImage image a
  · have hv := (h.getElem? ha).symm.trans (hf (a, v) List.mem_cons_self ha)
    have heq : m a = v := Option.some.inj hv
    rw [← heq, Function.update_eq_self]
    exact h
  · exact h.update hlen ha v

/-- The stores of `write_program` are the image's words. -/
theorem mem_writeProgram {w : Addr × Word} :
    w ∈ writeProgram image ↔ ∃ i, w.1 = BitVec.ofNat 10 (8 + i) ∧ image[i]? = some w.2 := by
  obtain ⟨a, v⟩ := w
  cases himage : image with
  | nil => simp [writeProgram]
  | cons x xs =>
    simp only [writeProgram, List.zipIdx_cons, List.tail_cons, List.take_succ_cons, List.take_zero,
      List.mem_append, List.mem_map, Prod.exists, Prod.mk.injEq, List.map_cons, List.map_nil,
      List.mem_singleton, zero_add]
    constructor
    · rintro (⟨u, n, hmem, rfl, rfl⟩ | ⟨rfl, rfl⟩)
      · have hget := List.mem_zipIdx_iff_le_and_getElem?_sub.mp hmem
        refine ⟨n, rfl, ?_⟩
        obtain ⟨k, rfl⟩ := Nat.exists_eq_add_of_le' hget.1
        rw [List.getElem?_cons_succ]
        exact hget.2
      · exact ⟨0, rfl, rfl⟩
    · rintro ⟨i, rfl, hget⟩
      cases i with
      | zero => exact .inr ⟨rfl, (Option.some.inj hget).symm⟩
      | succ k =>
        refine .inl ⟨v, k + 1, ?_, rfl, rfl⟩
        rw [List.mem_zipIdx_iff_le_and_getElem?_sub]
        exact ⟨Nat.le_add_left 1 k, hget⟩

/-- Their addresses are those of the image. -/
theorem writeProgram_addr (hlen : image.length ≤ 248) {w : Addr × Word}
    (hw : w ∈ writeProgram image) : InImage image w.1 ∧ image[w.1.toNat - 8]? = some w.2 := by
  obtain ⟨i, ha, hget⟩ := mem_writeProgram.mp hw
  obtain ⟨hi, -⟩ := List.getElem?_eq_some_iff.mp hget
  refine ⟨ha ▸ inImage_index hlen hi, ?_⟩
  rw [ha, toNat_index hlen hi, Nat.add_sub_cancel_left, hget]

/-- The stores of the load around those of the image. -/
theorem load_eq (hlen : image.length ≤ 248) (cfg : FpgaConfig) :
    load cfg image = ([(cfgEnable, 0), (cfgRestart, 0)] ++ pushConfig cfg) ++
      (writeProgram image ++ requestRestart) := by
  have hfits : 8 + image.length ≤ 256 := by omega
  rw [load, if_pos hfits]

/-- The driver's own words, all in the shared blocks. -/
theorem load_shared (cfg : FpgaConfig) {w : Addr × Word}
    (hw : w ∈ ([(cfgEnable, 0), (cfgRestart, 0)] ++ pushConfig cfg) ∨ w ∈ requestRestart) :
    inputBase ≤ w.1 ∧ (w.1 < outputBase ∨ w.1 = fwVersion) := by
  rcases hw with hw | hw
  all_goals
    simp only [pushConfig, requestRestart, List.mem_append, List.mem_cons, List.not_mem_nil,
      or_false] at hw
    rcases hw with (rfl | rfl) | rfl | rfl | rfl | rfl | rfl
    all_goals
      dsimp only
      decide

theorem mem_load (hlen : image.length ≤ 248) {cfg : FpgaConfig} {w : Addr × Word} :
    w ∈ load cfg image ↔ w ∈ [(cfgEnable, 0), (cfgRestart, 0)] ++ pushConfig cfg ∨
      w ∈ writeProgram image ∨ w ∈ requestRestart := by
  rw [load_eq hlen]
  exact List.mem_append.trans (or_congr_right List.mem_append)

/-- The load stores the image's words. -/
theorem load_faithful (hlen : image.length ≤ 248) (cfg : FpgaConfig) :
    Faithful image (load cfg image) := by
  intro w hw himage
  rcases (mem_load hlen).mp hw with hw | hw | hw
  · exact absurd himage (not_inImage hlen (load_shared cfg (.inl hw)).1)
  · exact (writeProgram_addr hlen hw).2
  · exact absurd himage (not_inImage hlen (load_shared cfg (.inr hw)).1)

/-- It stores all of them. -/
theorem load_covered (hlen : image.length ≤ 248) (cfg : FpgaConfig) (m : Addr → Word) :
    Covered image m (load cfg image) := by
  intro p hp
  have hi : p.toNat - 8 < image.length := by
    have hlo := hp.1
    have hhi := hp.2
    omega
  have hmem : (p, image[p.toNat - 8]) ∈ writeProgram image := by
    refine mem_writeProgram.mpr ⟨p.toNat - 8, ?_, List.getElem?_eq_getElem hi⟩
    rw [Nat.add_sub_cancel' hp.1, BitVec.ofNat_toNat, BitVec.setWidth_eq]
  exact .inr ⟨_, (mem_load hlen).mpr (.inr (.inl hmem)), rfl⟩

/-- Stores elsewhere in front. -/
theorem EntryLast.append {l l' : List (Addr × Word)} (hl : ∀ w ∈ l, w.1 ≠ programBase)
    (hl' : EntryLast image l') : EntryLast image (l ++ l') := by
  induction l with
  | nil => exact hl'
  | cons w l ih =>
    exact ⟨fun heq => absurd heq (hl w List.mem_cons_self),
      ih fun u hu => hl u (List.mem_cons_of_mem w hu)⟩

/-- The entry word of the image is stored last. -/
theorem writeProgram_entryLast (hlen : image.length ≤ 248) :
    EntryLast image (writeProgram image ++ requestRestart) := by
  have hrest : EntryLast image requestRestart := ⟨by rintro ⟨⟩, by rintro ⟨⟩, trivial⟩
  have hout : ∀ u ∈ requestRestart, ¬InImage image u.1 := fun u hu =>
    not_inImage hlen (load_shared ⟨0, 0, 0, 0, 0⟩ (.inr hu)).1
  cases image with
  | nil => exact hrest
  | cons x xs =>
    rw [List.length_cons] at hlen
    rw [writeProgram, List.append_assoc]
    refine .append (fun w hw heq => ?_) ⟨fun _ => hout, hrest⟩
    obtain ⟨⟨v, i⟩, hmem, rfl⟩ := List.mem_map.mp hw
    obtain ⟨hpos, hget⟩ := List.mem_zipIdx_iff_le_and_getElem?_sub.mp hmem
    obtain ⟨hi, -⟩ := List.getElem?_eq_some_iff.mp hget
    have hnat := congrArg BitVec.toNat heq
    rw [BitVec.toNat_ofNat] at hnat
    change (8 + i) % 1024 = 8 at hnat
    omega

theorem load_entryLast (hlen : image.length ≤ 248) (cfg : FpgaConfig) :
    EntryLast image (load cfg image) := by
  rw [load_eq hlen]
  refine .append (fun w hw heq => ?_) (writeProgram_entryLast hlen)
  have hbase := (load_shared cfg (.inl hw)).1
  rw [heq] at hbase
  exact absurd hbase (by decide)

end Loading

end Fmma
