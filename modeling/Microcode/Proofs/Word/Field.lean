import Microcode.Proofs.Word.InPlace
import Mathlib.Algebra.Group.Nat.Defs

/-!
# Microcode.Proofs.Word.Field

What reading and writing a field does to the bits of a word.

A field of a word is cut out of a list of bits and put back into one.  Here both are turned into
arithmetic on the number of the word, once, so that no later proof looks at a list of bits:

* `read_eq` — a field reads as the word, shifted to the right and reduced to the field's width;
* `store_eq` — a write succeeds exactly when the value fits, and then gives `put`;
* `getLsbD_put` — `put` replaces the bits of its field and keeps all others;
* `read_put_self`, `read_put_of_disjoint` — reading back, and the frame;
* `eq_of_read_eq` — a word is known once the fields of a covering layout are.
-/

namespace Microcode

/-! ## lists of bits -/

namespace Bits

/-- Reading goes on from the number read so far. -/
theorem foldl_eq (bits : List Bool) (n : Nat) :
    bits.foldl (fun n b => 2 * n + b.toNat) n = n * 2 ^ bits.length + value bits := by
  induction bits generalizing n with
  | nil => simp [value]
  | cons b bits ih =>
      simp only [value, List.foldl_cons, List.length_cons]
      rw [ih, ih (2 * 0 + b.toNat), Nat.pow_succ]
      have hdist : (2 * n + b.toNat) * 2 ^ bits.length =
          n * (2 ^ bits.length * 2) + b.toNat * 2 ^ bits.length := by
        rw [Nat.add_mul, Nat.mul_comm 2 n, Nat.mul_assoc, Nat.mul_comm 2]
      rw [hdist, Nat.mul_zero, Nat.zero_add, Nat.add_assoc]

/-- The bits in front count for more than those behind them. -/
theorem value_append (front back : List Bool) :
    value (front ++ back) = value front * 2 ^ back.length + value back := by
  rw [value, List.foldl_append, foldl_eq]
  rfl

theorem value_cons (b : Bool) (bits : List Bool) :
    value (b :: bits) = b.toNat * 2 ^ bits.length + value bits := by
  simpa [value] using value_append [b] bits

/-- A list of bits stands for a number that fits in it. -/
theorem value_lt (bits : List Bool) : value bits < 2 ^ bits.length := by
  induction bits with
  | nil => simp [value]
  | cons b bits ih =>
      rw [value_cons, List.length_cons, Nat.pow_succ]
      cases b <;> simp <;> omega

/-- A list of bits stands for 0 exactly when none of them is set. -/
theorem value_eq_zero_iff {bits : List Bool} : value bits = 0 ↔ bits.any id = false := by
  induction bits with
  | nil => simp [value]
  | cons b bits ih =>
      have hpos := Nat.two_pow_pos bits.length
      rw [value_cons, Nat.add_eq_zero_iff, ih]
      cases b <;> simp

/-- The bits of a number after its first one. -/
theorem ofNat_succ (width n : Nat) : ofNat (width + 1) n = n.testBit width :: ofNat width n := by
  simp only [ofNat, List.range_succ_eq_map, List.map_cons, List.map_map]
  congr 1
  apply List.map_congr_left
  intro i hi
  have hlt := List.mem_range.mp hi
  simp only [Function.comp_apply]
  congr 1
  omega

/-- The last bits of a number do not depend on the bits before them. -/
theorem ofNat_two_pow_add (width n : Nat) : ofNat width (2 ^ width + n) = ofNat width n := by
  apply List.map_congr_left
  intro i hi
  have hlt := List.mem_range.mp hi
  exact Nat.testBit_two_pow_add_gt (by omega) n

/-- A list of bits comes back from the number it stands for. -/
theorem ofNat_value (bits : List Bool) : ofNat bits.length (value bits) = bits := by
  induction bits with
  | nil => rfl
  | cons b bits ih =>
      have hfirst := Nat.testBit_lt_two_pow (value_lt bits)
      rw [List.length_cons, ofNat_succ, value_cons]
      cases b with
      | false => simp [hfirst, ih]
      | true => simp [hfirst, Nat.testBit_two_pow_add_eq, ofNat_two_pow_add, ih]

/-- The first `k` of the last `width` bits of a number. -/
theorem take_ofNat {k width : Nat} (h : k ≤ width) (n : Nat) :
    (ofNat width n).take k = ofNat k (n / 2 ^ (width - k)) := by
  apply List.ext_getElem
  · simp [h]
  · intro i hi _
    have hik : i < k := by simpa [h] using hi
    simp only [ofNat, List.getElem_take, List.getElem_map, List.getElem_range,
      Nat.testBit_div_two_pow]
    congr 1
    omega

/-- What is left of the last `width` bits of a number after the first `k`. -/
theorem drop_ofNat (k width n : Nat) : (ofNat width n).drop k = ofNat (width - k) n := by
  apply List.ext_getElem
  · simp
  · intro i hi _
    simp only [ofNat, List.getElem_drop, List.getElem_map, List.getElem_range]
    congr 1
    omega

/-- The last `width` bits of a number stand for its remainder. -/
theorem value_ofNat (width n : Nat) : value (ofNat width n) = n % 2 ^ width := by
  induction width generalizing n with
  | zero => simp [ofNat, value, Nat.mod_one]
  | succ width ih =>
      have hlast : ofNat (width + 1) n = ofNat width (n / 2) ++ [n.testBit 0] := by
        have hfront := take_ofNat (Nat.le_add_right width 1) n
        have hback := drop_ofNat width (width + 1) n
        rw [Nat.add_sub_cancel_left, Nat.pow_one] at hfront
        rw [Nat.add_sub_cancel_left] at hback
        rw [← List.take_append_drop width (ofNat (width + 1) n), hfront, hback]
        simp [ofNat]
      have hbit : value [n.testBit 0] = n % 2 := by
        rcases Nat.mod_two_eq_zero_or_one n with h | h <;> simp [value, Nat.testBit_zero, h]
      rw [hlast, value_append, ih, hbit, List.length_singleton, Nat.pow_one, Nat.pow_succ,
        Nat.mul_comm (2 ^ width) 2, Nat.mod_mul]
      omega

/-- The shift of a value of 32 bits by less than 32 leaves nothing of a number that fits. -/
theorem shiftRight_eq_zero_iff (value : UInt32) {width : Nat} (h : width < 32) :
    value >>> UInt32.ofNat width = 0 ↔ value.toNat < 2 ^ width := by
  have hamount : (UInt32.ofNat width).toNat % 32 = width := by
    rw [UInt32.toNat_ofNat', Nat.mod_eq_of_lt (by omega : width < 2 ^ 32), Nat.mod_eq_of_lt h]
  rw [← UInt32.toNat_inj, UInt32.toNat_shiftRight, hamount, Nat.shiftRight_eq_div_pow]
  exact Nat.div_eq_zero_iff_lt (Nat.two_pow_pos _)

/-- A value of 32 bits is written with `width` bits exactly when the width is one of a word's and the
value fits. -/
theorem encodeWord_eq (value : UInt32) (width : Nat) :
    encodeWord value width =
      if 1 ≤ width ∧ width ≤ 32 ∧ value.toNat < 2 ^ width then .ok (ofNat width value.toNat)
      else .error (.overflow value.toNat width) := by
  have hrefused : (width = 0 ∨ 32 < width) ∨ width < 32 ∧ ¬value >>> UInt32.ofNat width = 0 ↔
      ¬(1 ≤ width ∧ width ≤ 32 ∧ value.toNat < 2 ^ width) := by
    rcases Nat.lt_trichotomy width 32 with hlt | rfl | hgt
    · rw [shiftRight_eq_zero_iff value hlt]
      omega
    · -- all values of 32 bits fit, and no shift is asked for
      have hfits := value.toNat_lt
      omega
    · omega
  simp only [encodeWord, Bool.or_eq_true, Bool.and_eq_true, beq_iff_eq, bne_iff_ne, ne_eq,
    decide_eq_true_eq, hrefused, ite_not]

/-- A number is written with `width` bits exactly when the width is one of a word's and the number
fits. -/
theorem encode_eq_ite (n width : Nat) :
    encode n width =
      if 1 ≤ width ∧ width ≤ 32 ∧ n < 2 ^ width then .ok (ofNat width n)
      else .error (.overflow n width) := by
  unfold encode
  split
  · next h => rw [encodeWord_eq, UInt32.toNat_ofNatLT]
  · next h =>
      -- a number past the last value of 32 bits is past the last of any smaller width
      have hpast : ¬(1 ≤ width ∧ width ≤ 32 ∧ n < 2 ^ width) := by
        rintro ⟨-, hle, hfits⟩
        exact h (Nat.lt_of_lt_of_le hfits (Nat.pow_le_pow_right (by decide) hle))
      rw [if_neg hpast]

theorem encode_eq {width : Nat} (hpos : 1 ≤ width) (hle : width ≤ 32) (n : Nat) :
    encode n width =
      if n < 2 ^ width then .ok (ofNat width n) else .error (.overflow n width) := by
  simp [encode_eq_ite, hpos, hle]

end Bits

namespace Field

/-- The first bit of a field, counted from the last bit of the word. -/
theorem msb_eq (f : Field) : f.msb + 1 = f.shift + f.width := by
  have := f.width_le
  simp only [shift]
  omega

/-- A field is at most as wide as a word. -/
theorem width_le_word (f : Field) : f.width ≤ 32 := by
  have := f.stop_le
  simp only [stop] at this
  omega

/-- A field contains the bit with the given number. -/
def Contains (f : Field) (k : Nat) : Prop := f.shift ≤ k ∧ k ≤ f.msb

instance (f : Field) (k : Nat) : Decidable (f.Contains k) :=
  inferInstanceAs (Decidable (_ ∧ _))

/-- Two fields have no bit in common. -/
def Disjoint (f g : Field) : Prop := f.msb < g.shift ∨ g.msb < f.shift

instance (f g : Field) : Decidable (f.Disjoint g) := inferInstanceAs (Decidable (_ ∨ _))

/-- A bit of one field is no bit of a disjoint one. -/
theorem Disjoint.not_contains {f g : Field} (h : f.Disjoint g) {k : Nat} (hk : g.Contains k) :
    ¬f.Contains k := by
  simp only [Disjoint, Contains] at *
  omega

end Field

namespace MicroWord

/-! ## reading -/

/-- A word is below `2 ^ 32`. -/
theorem toNat_lt (w : MicroWord) : w.toNat < 2 ^ 32 := w.bits.isLt

/-- A field reads as the word, shifted and reduced. -/
theorem read_eq (w : MicroWord) (f : Field) : w.read f = w.toNat / 2 ^ f.shift % 2 ^ f.width := by
  have hstop := f.stop_add_shift
  have hwidth : f.width ≤ 32 - f.start := by
    simp only [Field.stop] at hstop
    omega
  have hshift : 32 - f.start - f.width = f.shift := by
    simp only [Field.stop] at hstop
    omega
  rw [read, slice, toBits, Bits.drop_ofNat, Bits.take_ofNat hwidth, hshift, Bits.value_ofNat]

/-- A field reads as a number that fits in it. -/
theorem read_lt (w : MicroWord) (f : Field) : w.read f < 2 ^ f.width := by
  rw [read_eq]
  exact Nat.mod_lt _ (Nat.two_pow_pos _)

/-- The bits of a number read from a field. -/
theorem testBit_read (w : MicroWord) (f : Field) (j : Nat) :
    (w.read f).testBit j = (decide (j < f.width) && w.bits.getLsbD (f.shift + j)) := by
  rw [read_eq, Nat.testBit_mod_two_pow, Nat.testBit_div_two_pow, Nat.add_comm j]
  rfl

/-- A bit of a field, found in the number read from it. -/
theorem getLsbD_eq_testBit_read (w : MicroWord) {f : Field} {k : Nat} (hk : f.Contains k) :
    w.bits.getLsbD k = (w.read f).testBit (k - f.shift) := by
  have hmsb := f.msb_eq
  obtain ⟨hlow, hhigh⟩ := hk
  rw [testBit_read, Nat.add_sub_cancel' hlow, decide_eq_true (by omega), Bool.true_and]

/-! ## writing -/

/-- A word with its field replaced by a number, of which the last bits count. -/
def put (w : MicroWord) (f : Field) (value : Nat) : MicroWord := w.splice f (Bits.ofNat f.width value)

theorem storeBits_ofNat (w : MicroWord) (f : Field) (value : Nat) :
    storeBits f (Bits.ofNat f.width value) w = (.ok (), w.put f value) := by
  rw [storeBits_eq, if_pos (Bits.length_ofNat _ _), put]

/-- Writing a number succeeds exactly when it fits, and a refusal changes nothing. -/
theorem store_eq (w : MicroWord) (f : Field) (value : Nat) :
    store f value w =
      if value < 2 ^ f.width then (.ok (), w.put f value)
      else (.error (.overflow value f.width), w) := by
  have hencode := Bits.encode_eq f.width_pos f.width_le_word value
  split
  · next hfit =>
      rw [if_pos hfit] at hencode
      rw [store_eq_of_encode hencode, storeBits_ofNat]
  · next hfit =>
      rw [if_neg hfit] at hencode
      exact store_eq_of_overflow hencode

theorem write_eq (w : MicroWord) (f : Field) (value : Nat) :
    w.write f value =
      if value < 2 ^ f.width then .ok (w.put f value) else .error (.overflow value f.width) := by
  unfold write after
  rw [store_eq]
  by_cases hfit : value < 2 ^ f.width
  · simp only [hfit, if_true]
  · simp only [hfit, if_false]

/-- A value that fits is written. -/
theorem write_of_lt (w : MicroWord) {f : Field} {value : Nat} (h : value < 2 ^ f.width) :
    w.write f value = .ok (w.put f value) := by
  rw [write_eq, if_pos h]

/-- The bits before a field, as a number. -/
theorem value_take_start (w : MicroWord) (f : Field) :
    Bits.value (w.toBits.take f.start) = w.toNat / 2 ^ (f.msb + 1) := by
  have hlt := f.msb_lt
  have hstart : f.start + (f.msb + 1) = 32 := by
    simp only [Field.start]
    omega
  have hrest : 32 - f.start = f.msb + 1 := by omega
  rw [toBits, Bits.take_ofNat (by omega), hrest, Bits.value_ofNat]
  apply Nat.mod_eq_of_lt
  apply Nat.div_lt_of_lt_mul
  rw [← Nat.pow_add, Nat.add_comm, hstart]
  exact w.toNat_lt

/-- The bits after a field, as a number. -/
theorem value_drop_stop (w : MicroWord) (f : Field) :
    Bits.value (w.toBits.drop f.stop) = w.toNat % 2 ^ f.shift := by
  have hstop : 32 - f.stop = f.shift := by
    have := f.stop_add_shift
    omega
  rw [toBits, Bits.drop_ofNat, hstop, Bits.value_ofNat]

/-- The number of a word whose field was replaced: what stands before the field, the new bits, and
what stands after it. -/
theorem toNat_splice (w : MicroWord) (f : Field) {bits : List Bool} (h : bits.length = f.width) :
    (w.splice f bits).toNat =
      2 ^ (f.msb + 1) * (w.toNat / 2 ^ (f.msb + 1)) +
        (2 ^ f.shift * Bits.value bits + w.toNat % 2 ^ f.shift) := by
  have hmsb := f.msb_eq
  have hstop : 32 - f.stop = f.shift := by
    have := f.stop_add_shift
    omega
  have hlen : (w.toBits.take f.start ++ bits ++ w.toBits.drop f.stop).length = 32 := by
    have := f.stop_le
    simp only [List.length_append, List.length_take, List.length_drop, length_toBits, h]
    simp only [Field.stop] at *
    omega
  have hvalue := Bits.value_lt (w.toBits.take f.start ++ bits ++ w.toBits.drop f.stop)
  rw [hlen] at hvalue
  have hsplice : (w.splice f bits).toNat =
      Bits.value (w.toBits.take f.start ++ bits ++ w.toBits.drop f.stop) := by
    simp only [splice, ofBits, ofNat, toNat, BitVec.toNat_ofNat]
    exact Nat.mod_eq_of_lt hvalue
  rw [hsplice, Bits.value_append, Bits.value_append, value_take_start, value_drop_stop,
    List.length_drop, length_toBits, hstop, h, hmsb, Nat.pow_add, Nat.add_mul,
    Nat.mul_comm (Bits.value bits), Nat.mul_assoc, Nat.mul_comm _ (2 ^ f.width * 2 ^ f.shift),
    Nat.mul_comm (2 ^ f.width), Nat.add_assoc]

/-- `put` replaces the bits of its field and keeps all others. -/
theorem getLsbD_put (w : MicroWord) (f : Field) (value k : Nat) :
    (w.put f value).bits.getLsbD k =
      if f.Contains k then value.testBit (k - f.shift) else w.bits.getLsbD k := by
  have hmsb := f.msb_eq
  have hlow : w.toNat % 2 ^ f.shift < 2 ^ f.shift := Nat.mod_lt _ (Nat.two_pow_pos _)
  have hfield : value % 2 ^ f.width < 2 ^ f.width := Nat.mod_lt _ (Nat.two_pow_pos _)
  have hpart : 2 ^ f.shift * (value % 2 ^ f.width) + w.toNat % 2 ^ f.shift < 2 ^ (f.msb + 1) := by
    calc
      _ < 2 ^ f.shift * (value % 2 ^ f.width) + 2 ^ f.shift := Nat.add_lt_add_left hlow _
      _ = 2 ^ f.shift * (value % 2 ^ f.width + 1) := (Nat.mul_succ _ _).symm
      _ ≤ 2 ^ f.shift * 2 ^ f.width := Nat.mul_le_mul_left _ hfield
      _ = 2 ^ (f.msb + 1) := by rw [hmsb, Nat.pow_add]
  have hbit : (w.put f value).bits.getLsbD k = (w.put f value).toNat.testBit k := rfl
  have hold : w.bits.getLsbD k = w.toNat.testBit k := rfl
  rw [hbit, hold, put, toNat_splice w f (Bits.length_ofNat _ _), Bits.value_ofNat,
    Nat.testBit_two_pow_mul_add _ hpart, Nat.testBit_two_pow_mul_add _ hlow,
    Nat.testBit_div_two_pow, Nat.testBit_mod_two_pow, Nat.testBit_mod_two_pow]
  -- the three ranges of bits: after the field, in it, and before it
  by_cases hlt : k < f.shift
  · have hk : k < f.msb + 1 := by omega
    have hout : ¬f.Contains k := by simp only [Field.Contains]; omega
    simp [hlt, hk, hout]
  · by_cases hin : k < f.msb + 1
    · have hk : f.Contains k := by simp only [Field.Contains]; omega
      have hj : k - f.shift < f.width := by omega
      simp [hlt, hin, hk, hj]
    · have hout : ¬f.Contains k := by simp only [Field.Contains]; omega
      have hback : k - (f.msb + 1) + (f.msb + 1) = k := by omega
      simp [hin, hout, hback]

/-- A field has the last bits of the value that was written to it. -/
theorem read_put (w : MicroWord) (f : Field) (value : Nat) :
    (w.put f value).read f = value % 2 ^ f.width := by
  apply Nat.eq_of_testBit_eq
  intro j
  rw [testBit_read, getLsbD_put, Nat.testBit_mod_two_pow]
  have hmsb := f.msb_eq
  by_cases hj : j < f.width
  · have hin : f.Contains (f.shift + j) := by simp only [Field.Contains]; omega
    simp [hin]
  · simp [hj]

/-- A value that fits reads back from the field it was written to. -/
theorem read_put_self (w : MicroWord) (f : Field) {value : Nat} (h : value < 2 ^ f.width) :
    (w.put f value).read f = value := by
  rw [read_put, Nat.mod_eq_of_lt h]

/-- Fields without a common bit do not see each other's writes. -/
theorem read_put_of_disjoint (w : MicroWord) {f g : Field} (h : f.Disjoint g) (value : Nat) :
    (w.put f value).read g = w.read g := by
  apply Nat.eq_of_testBit_eq
  intro j
  rw [testBit_read, testBit_read, getLsbD_put]
  have hmsb := g.msb_eq
  by_cases hj : j < g.width
  · have hin : g.Contains (g.shift + j) := by simp only [Field.Contains]; omega
    simp [h.not_contains hin]
  · simp [hj]

/-- No field of the word without set bits reads as anything but 0. -/
@[simp] theorem read_zero (f : Field) : zero.read f = 0 := by
  rw [read_eq]
  simp [zero, ofNat, toNat]

/-- A word is known once its bits are. -/
theorem eq_of_getLsbD {u w : MicroWord}
    (h : ∀ k < 32, u.bits.getLsbD k = w.bits.getLsbD k) : u = w := by
  have hbits : u.bits = w.bits := BitVec.eq_of_getLsbD_eq h
  cases u
  cases w
  exact congrArg MicroWord.mk hbits

/-- A word is known once every field of a layout that covers it is. -/
theorem eq_of_read_eq {u w : MicroWord} {layout : List Field}
    (hcover : ∀ k < 32, ∃ f ∈ layout, f.Contains k)
    (h : ∀ f ∈ layout, u.read f = w.read f) : u = w := by
  apply eq_of_getLsbD
  intro k hk
  obtain ⟨f, hf, hin⟩ := hcover k hk
  rw [getLsbD_eq_testBit_read u hin, getLsbD_eq_testBit_read w hin, h f hf]

/-! ## writing several fields -/

/-- A word after several fields have been replaced, one after the other. -/
def putAll (w : MicroWord) (values : List (Field × Nat)) : MicroWord :=
  values.foldl (fun w (f, value) => w.put f value) w

@[simp] theorem putAll_nil (w : MicroWord) : w.putAll [] = w := rfl

@[simp] theorem putAll_cons (w : MicroWord) (f : Field) (value : Nat)
    (values : List (Field × Nat)) :
    w.putAll ((f, value) :: values) = (w.put f value).putAll values := rfl

@[simp] theorem putAll_append (w : MicroWord) (values more : List (Field × Nat)) :
    w.putAll (values ++ more) = (w.putAll values).putAll more := List.foldl_append

/-- Writes to other fields leave a field as it was. -/
theorem read_putAll_of_disjoint (w : MicroWord) (g : Field) {values : List (Field × Nat)}
    (h : ∀ x ∈ values, x.1.Disjoint g) : (w.putAll values).read g = w.read g := by
  induction values generalizing w with
  | nil => rfl
  | cons x values ih =>
      obtain ⟨f, value⟩ := x
      have hrest := ih (w.put f value) fun y hy => h y (List.mem_cons_of_mem _ hy)
      rw [putAll_cons, hrest, read_put_of_disjoint w (h _ List.mem_cons_self)]

end MicroWord

/-! ## control lines -/

namespace ControlLine

/-- The field of one bit that a control line is. -/
def field : ControlLine → Field
  | .ldAddr => .ldAddr
  | .ldAl => .ldAl
  | .ldT1 => .ldT1
  | .ldT2 => .ldT2
  | .muxIn => .muxIn
  | .rbAddrMsb => .rbAddrMsb
  | .clrAcy => .clrAcy
  | .doWe => .doWe
  | .rbWe => .rbWe

/-- A control line stands where its field does. -/
theorem field_eq (line : ControlLine) :
    line.field.shift = line.position ∧ line.field.width = 1 := by
  cases line <;> decide

end ControlLine

/-- The field of a control line reads as 1 when the word sets the line, as 0 otherwise. -/
theorem MicroWord.read_field (w : MicroWord) (line : ControlLine) :
    w.read line.field = (w.drives line).toNat := by
  obtain ⟨hshift, hwidth⟩ := line.field_eq
  have hbit := testBit_read w line.field 0
  have hlt := w.read_lt line.field
  rw [hwidth] at hlt
  rw [hshift, hwidth] at hbit
  rw [MicroWord.drives]
  rcases Nat.lt_or_ge (w.read line.field) 1 with h | h
  · have hread : w.read line.field = 0 := by omega
    have hoff : w.bits.getLsbD line.position = false := by simpa [hread] using hbit.symm
    rw [hread, hoff]
    rfl
  · have hread : w.read line.field = 1 := by omega
    have hon : w.bits.getLsbD line.position = true := by simpa [hread] using hbit.symm
    rw [hread, hon]
    rfl

end Microcode
