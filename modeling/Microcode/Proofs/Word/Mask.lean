import Microcode.Proofs.Word.Field

/-!
# Microcode.Proofs.Word.Mask

The bit packer, said with masks and shifts.

The bits of a field are those that its mask sets (`Field.testBit_mask`).  So a field reads as the
masked word, shifted down (`MicroWord.read_eq_mask`), and writing clears the masked bits and sets
those of the value, shifted up (`MicroWord.put_eq_masked`).  A write that is refused leaves the word
as it was, since every check comes before the word is changed.
-/

namespace Microcode

/-! ## lists of bits -/

namespace Bits

/-- Exactly the numbers that fit in a width of a word are written with as many bits. -/
theorem exists_encode_iff {n width : Nat} :
    (∃ bits, encode n width = .ok bits ∧ bits.length = width ∧ value bits = n) ↔
      1 ≤ width ∧ width ≤ 32 ∧ n < 2 ^ width := by
  constructor
  · rintro ⟨bits, hbits, -⟩
    rw [encode_eq_ite] at hbits
    split at hbits
    · assumption
    · exact nomatch hbits
  · intro hfits
    refine ⟨ofNat width n, ?_, length_ofNat width n, ?_⟩
    · rw [encode_eq_ite, if_pos hfits]
    · rw [value_ofNat, Nat.mod_eq_of_lt hfits.2.2]

/-- All others overflow. -/
theorem encode_eq_overflow_iff {n width : Nat} :
    encode n width = .error (.overflow n width) ↔ ¬(1 ≤ width ∧ width ≤ 32 ∧ n < 2 ^ width) := by
  rw [encode_eq_ite]
  split <;> simp_all

end Bits

/-! ## masks -/

namespace Field

/-- The ones of a field, as a number: the field may be all of the word. -/
theorem toNat_ones (f : Field) : f.ones.toNat = 2 ^ f.width - 1 := by
  have hle := f.width_le_word
  unfold ones
  by_cases hfull : f.width = 32
  · rw [if_pos (beq_iff_eq.mpr hfull), hfull]
    rfl
  · have hlt : f.width < 32 := by omega
    have hshift : ((1 : UInt32) <<< UInt32.ofNat f.width).toNat = 2 ^ f.width := by
      rw [UInt32.toNat_shiftLeft, UInt32.toNat_ofNat',
        Nat.mod_eq_of_lt (by omega : f.width < 2 ^ 32), Nat.mod_eq_of_lt hlt, UInt32.toNat_one,
        Nat.one_shiftLeft]
      exact Nat.mod_eq_of_lt (Nat.pow_lt_pow_right (by decide) hlt)
    have hone : (1 : UInt32) ≤ 1 <<< UInt32.ofNat f.width := by
      rw [UInt32.le_iff_toNat_le, hshift]
      exact Nat.one_le_two_pow
    rw [if_neg (fun h => hfull (beq_iff_eq.mp h)), UInt32.toNat_sub_of_le _ _ hone, hshift]
    rfl

/-- The shifted ones of a field stay inside the word. -/
theorem mask_eq (f : Field) : f.mask = (2 ^ f.width - 1) * 2 ^ f.shift := by
  have hmsb := f.msb_eq
  have hlt := f.msb_lt
  have hpos := f.width_pos
  have hinside : (2 ^ f.width - 1) * 2 ^ f.shift < 2 ^ 32 := by
    calc
      (2 ^ f.width - 1) * 2 ^ f.shift < 2 ^ f.width * 2 ^ f.shift :=
        Nat.mul_lt_mul_of_pos_right (Nat.sub_lt (Nat.two_pow_pos _) (by decide))
          (Nat.two_pow_pos _)
      _ = 2 ^ (f.msb + 1) := by rw [← Nat.pow_add, hmsb, Nat.add_comm]
      _ ≤ 2 ^ 32 := Nat.pow_le_pow_right (by decide) hlt
  rw [mask, UInt32.toNat_shiftLeft, UInt32.toNat_ofNat',
    Nat.mod_eq_of_lt (by omega : f.shift < 2 ^ 32), Nat.mod_eq_of_lt (by omega : f.shift < 32),
    toNat_ones, Nat.shiftLeft_eq, Nat.mod_eq_of_lt hinside]

/-- A mask has the bits of its field. -/
theorem testBit_mask (f : Field) (k : Nat) : f.mask.testBit k = decide (f.Contains k) := by
  have hmsb := f.msb_eq
  rw [mask_eq, Nat.testBit_mul_two_pow, Nat.testBit_two_pow_sub_one, ← Bool.decide_and,
    decide_eq_decide, Contains]
  omega

end Field

namespace MicroWord

/-! ## reading -/

/-- A field reads as the masked word, shifted down. -/
theorem read_eq_mask (w : MicroWord) (f : Field) :
    w.read f = (w.toNat &&& f.mask) / 2 ^ f.shift := by
  apply Nat.eq_of_testBit_eq
  intro j
  have hmsb := f.msb_eq
  have hin : f.Contains (f.shift + j) ↔ j < f.width := by
    rw [Field.Contains]
    omega
  have hbit : w.toNat.testBit (f.shift + j) = w.bits.getLsbD (f.shift + j) := rfl
  rw [testBit_read, Nat.testBit_div_two_pow, Nat.testBit_and, Nat.add_comm j, Field.testBit_mask,
    hbit, Bool.and_comm, decide_eq_decide.mpr hin]

/-- A field is set when it does not read as 0. -/
theorem isSet_iff_read (w : MicroWord) (f : Field) : w.isSet f = true ↔ w.read f ≠ 0 := by
  rw [isSet, read, ne_eq, Bits.value_eq_zero_iff, Bool.not_eq_false]

/-- A field is set when the mask leaves something of the word. -/
theorem isSet_iff_mask (w : MicroWord) (f : Field) :
    w.isSet f = true ↔ w.toNat &&& f.mask ≠ 0 := by
  rw [isSet_iff_read, read_eq_mask]
  refine not_congr ?_
  rw [Nat.div_eq_zero_iff_lt (Nat.two_pow_pos _)]
  constructor
  · intro hlt
    apply Nat.eq_of_testBit_eq
    intro k
    rw [Nat.zero_testBit]
    -- the mask has no bit below the field, and a number below `2 ^ shift` has none from there on
    by_cases hk : k < f.shift
    · have hout : ¬f.Contains k := by rw [Field.Contains]; omega
      rw [Nat.testBit_and, Field.testBit_mask, decide_eq_false hout, Bool.and_false]
    · exact Nat.testBit_lt_two_pow
        (Nat.lt_of_lt_of_le hlt (Nat.pow_le_pow_right (by decide) (Nat.le_of_not_lt hk)))
  · intro hzero
    rw [hzero]
    exact Nat.two_pow_pos _

/-! ## writing -/

/-- A word with the bits of a mask cleared and those of a shifted value set. -/
def masked (w : MicroWord) (f : Field) (value : Nat) : MicroWord :=
  ⟨w.bits &&& ~~~BitVec.ofNat 32 f.mask ||| BitVec.ofNat 32 (value * 2 ^ f.shift)⟩

/-- Writing a value that fits clears the masked bits and sets those of the value. -/
theorem put_eq_masked (w : MicroWord) {f : Field} {value : Nat} (h : value < 2 ^ f.width) :
    w.put f value = w.masked f value := by
  have hmsb := f.msb_eq
  apply eq_of_getLsbD
  intro k hk
  rw [getLsbD_put, masked, BitVec.getLsbD_or, BitVec.getLsbD_and, BitVec.getLsbD_not,
    BitVec.getLsbD_ofNat, BitVec.getLsbD_ofNat, Field.testBit_mask, Nat.testBit_mul_two_pow,
    decide_eq_true hk]
  by_cases hin : f.Contains k
  · simp [hin, hin.1]
  · -- above the field, the shifted value has no bit
    have hvalue : f.shift ≤ k → value.testBit (k - f.shift) = false := by
      intro hle
      have hwidth : f.width ≤ k - f.shift := by
        rw [Field.Contains] at hin
        omega
      exact Nat.testBit_lt_two_pow
        (Nat.lt_of_lt_of_le h (Nat.pow_le_pow_right (by decide) hwidth))
    simp only [hin, if_false, decide_false, Bool.and_false, Bool.not_false, Bool.and_true,
      Bool.true_and]
    by_cases hle : f.shift ≤ k
    · simp [hvalue hle]
    · simp [hle]

/-- Writing a number succeeds exactly when it fits, and a refused write changes nothing. -/
theorem store_eq_masked (w : MicroWord) (f : Field) (value : Nat) :
    store f value w =
      if value < 2 ^ f.width then (.ok (), w.masked f value)
      else (.error (.overflow value f.width), w) := by
  rw [store_eq]
  by_cases hfit : value < 2 ^ f.width
  · simp only [hfit, if_true, put_eq_masked w hfit]
  · simp only [hfit, if_false]

/-- Writing as many bits as a field has is writing the number they stand for. -/
theorem storeBits_eq_store (w : MicroWord) {f : Field} {bits : List Bool}
    (h : bits.length = f.width) : storeBits f bits w = store f (Bits.value bits) w := by
  have hfit : Bits.value bits < 2 ^ f.width := h ▸ Bits.value_lt bits
  rw [store_eq, if_pos hfit, ← storeBits_ofNat, ← h, Bits.ofNat_value]

/-- The packer is arithmetic with the mask of a field: reading, testing and writing, by number and
by bits, and what is refused. -/
theorem packer_eq_mask (f : Field) (w : MicroWord) (value : Nat) (bits : List Bool) (width : Nat) :
    (f.shift = f.msb + 1 - f.width ∧ f.mask = (2 ^ f.width - 1) * 2 ^ f.shift) ∧
      (store f value w =
        if value < 2 ^ f.width then (.ok (), w.masked f value)
        else (.error (.overflow value f.width), w)) ∧
      (((storeBits f bits w).1 = .ok () ↔ bits.length = f.width) ∧
        storeBits f bits w =
          if bits.length = f.width then store f (Bits.value bits) w
          else (.error (.widthMismatch f.name f.width bits.length), w)) ∧
      w.read f = (w.toNat &&& f.mask) / 2 ^ f.shift ∧
      (w.isSet f = true ↔ w.toNat &&& f.mask ≠ 0) ∧
      ((∃ bits, Bits.encode value width = .ok bits ∧ bits.length = width ∧
          Bits.value bits = value) ↔ 1 ≤ width ∧ width ≤ 32 ∧ value < 2 ^ width) ∧
      (Bits.encode value width = .error (.overflow value width) ↔
        ¬(1 ≤ width ∧ width ≤ 32 ∧ value < 2 ^ width)) := by
  refine ⟨⟨rfl, f.mask_eq⟩, w.store_eq_masked f value, ⟨?_, ?_⟩,
    w.read_eq_mask f, w.isSet_iff_mask f, Bits.exists_encode_iff, Bits.encode_eq_overflow_iff⟩
  · rw [storeBits_eq]
    by_cases hlength : bits.length = f.width <;> simp [hlength]
  · by_cases hlength : bits.length = f.width
    · rw [if_pos hlength, storeBits_eq_store w hlength]
    · rw [storeBits_eq, if_neg hlength, if_neg hlength]

end MicroWord

end Microcode
