import Microcode.Proofs.Instruction.Syntax
import Microcode.Proofs.Word.Jump
import Mathlib.Data.List.Induction

/-!
# Microcode.Proofs.Instruction.Encoding

The words of regular instructions.

Every value that an instruction writes fits in its field, so that the word of an instruction is its
`image`, the zero word with the field values put into it.  The stages and the flags write different
fields, and a flag leaves in its field the value of the last flag that names it.  No flag has the
code of a jump, so no instruction looks like one.
-/

namespace Microcode

/-! ## the layout of a regular instruction -/

namespace Field

/-- The bits that no regular instruction sets. -/
def spare : Field := { name := "spare", msb := 13, width := 4, width_pos := Nat.succ_pos 3 }

/-- The fields of a regular instruction; together they are all bits of a word. -/
def layout : List Field :=
  [flags1, flags2, ldAddr, ldAl, ldT1, ldT2, muxIn, rbAddrSel, rbAddr, clrAcy, spare, fp, doWe,
    rbWe, aluOp]

/-- The fields that the operand stage and the ALU stage write. -/
def stages : List Field :=
  [ldT1, ldT2, muxIn, rbAddrSel, rbAddr, rbAddrMsb, doWe, rbWe, aluOp]

/-- The fields that flags write. -/
def flagFields : List Field := [flags1, flags2, ldAddr, ldAl, clrAcy, fp]

theorem layout_covers : ∀ k < 32, ∃ f ∈ layout, f.Contains k := by decide

theorem layout_disjoint : ∀ f ∈ layout, ∀ g ∈ layout, f = g ∨ f.Disjoint g := by decide

theorem flagFields_subset {f : Field} (h : f ∈ flagFields) : f ∈ layout := by
  have hall : ∀ f ∈ flagFields, f ∈ layout := by decide
  exact hall f h

theorem stages_disjoint : ∀ f ∈ stages, ∀ g ∈ flagFields, f.Disjoint g := by decide

end Field

/-! ## the field values fit -/

/-- The index of a register fits in the bank address. -/
theorem Register.index_lt (r : Register) : r.index < 2 ^ Field.rbAddr.width := by
  cases r <;> decide

/-- The select code and the pair bit of an alias fit in their fields. -/
theorem Alias.select_lt (a : Alias) :
    a.select < 2 ^ Field.rbAddrSel.width ∧ a.high < 2 ^ Field.rbAddrMsb.width := by
  cases a <;> decide

/-- A source writes values that fit, into fields of the stages. -/
theorem OperandSource.values_fit (source : OperandSource) :
    ∀ x ∈ source.values, x.1 ∈ Field.stages ∧ x.2 < 2 ^ x.1.width := by
  intro x hx
  cases source with
  | dataIn =>
      simp only [values, List.mem_singleton] at hx
      rw [hx]
      decide
  | bank ref =>
      obtain r | a := ref
      · simp only [values, List.mem_cons, List.not_mem_nil, or_false] at hx
        rcases hx with rfl | rfl | rfl
        · decide
        · exact ⟨by simp [Field.stages], r.index_lt⟩
        · decide
      · simp only [values, List.mem_cons, List.not_mem_nil, or_false] at hx
        rcases hx with rfl | rfl | rfl
        · exact ⟨by simp [Field.stages], a.select_lt.1⟩
        · exact ⟨by simp [Field.stages], a.select_lt.2⟩
        · decide

/-- A temporary register is loaded by a field of the stages. -/
theorem Temp.field_fits (temp : Temp) :
    temp.field ∈ Field.stages ∧ 1 < 2 ^ temp.field.width := by
  cases temp <;> decide

/-- An operand stage writes values that fit, into fields of the stages. -/
theorem Operand.values_fit (o : Operand) :
    ∀ x ∈ o.values, x.1 ∈ Field.stages ∧ x.2 < 2 ^ x.1.width := by
  intro x hx
  cases o with
  | nop => exact absurd hx List.not_mem_nil
  | load temp source =>
      rw [values, List.mem_cons] at hx
      rcases hx with rfl | hx
      · exact temp.field_fits
      · exact source.values_fit x hx

/-- A destination writes values that fit, into fields of the stages. -/
theorem AluDest.values_fit (dest : AluDest) :
    ∀ x ∈ dest.values, x.1 ∈ Field.stages ∧ x.2 < 2 ^ x.1.width := by
  intro x hx
  cases dest with
  | dataOut =>
      simp only [values, List.mem_singleton] at hx
      rw [hx]
      decide
  | bank ref =>
      obtain r | a := ref
      · simp only [values, List.mem_cons, List.not_mem_nil, or_false] at hx
        rcases hx with rfl | rfl
        · exact ⟨by simp [Field.stages], r.index_lt⟩
        · decide
      · simp only [values, List.mem_cons, List.not_mem_nil, or_false] at hx
        rcases hx with rfl | rfl | rfl
        · exact ⟨by simp [Field.stages], a.select_lt.1⟩
        · exact ⟨by simp [Field.stages], a.select_lt.2⟩
        · decide

/-- An ALU stage writes values that fit, into fields of the stages. -/
theorem Alu.values_fit (a : Alu) :
    ∀ x ∈ a.values, x.1 ∈ Field.stages ∧ x.2 < 2 ^ x.1.width := by
  intro x hx
  cases a with
  | nop => exact absurd hx List.not_mem_nil
  | carry op =>
      simp only [values, List.mem_singleton] at hx
      rw [hx]
      cases op <;> decide
  | assign dest op =>
      rw [values, List.mem_append, List.mem_singleton] at hx
      rcases hx with hx | rfl
      · exact dest.values_fit x hx
      · cases op <;> decide

theorem Flag.mem_all (flag : Flag) : flag ∈ Flag.all := by cases flag <;> decide

/-- No flag for `flags2` has the code of a jump. -/
theorem Flag.value_ne_code {flag : Flag} (h : flag.field = Field.flags2) (kind : JumpKind) :
    flag.value ≠ kind.code := by
  have hcodes : ∀ flag ∈ Flag.all, flag.field = Field.flags2 →
      ∀ kind ∈ JumpKind.all, flag.value ≠ kind.code := by decide
  exact hcodes flag flag.mem_all h kind (by cases kind <;> decide)

/-- A flag writes a value that fits, into one of the flag fields. -/
theorem Flag.value_fits (flag : Flag) :
    flag.field ∈ Field.flagFields ∧ flag.value < 2 ^ flag.field.width := by
  cases flag <;> decide

/-- The word of an instruction. -/
def Instruction.image (i : Instruction) : MicroWord := MicroWord.zero.putAll i.values

/-! ## the fields of the word -/

/-- The word of an instruction before its flags are written. -/
def Instruction.stageImage (i : Instruction) : MicroWord :=
  (MicroWord.zero.putAll i.operand.values).putAll i.alu.values

/-- A word after several flags have been written into it, one after the other. -/
def MicroWord.putFlags (w : MicroWord) (flags : List Flag) : MicroWord :=
  w.putAll (flags.map fun flag => (flag.field, flag.value))

/-- The word of an instruction is that of its stages with the flags written into it. -/
theorem Instruction.image_eq (i : Instruction) : i.image = i.stageImage.putFlags i.flags := by
  rw [image, values, MicroWord.putAll_append, MicroWord.putAll_append, ← stageImage,
    MicroWord.putFlags]

/-- The value that the last of several flags for a field leaves in it. -/
def Flag.valueIn? (flags : List Flag) (g : Field) : Option Nat :=
  (flags.reverse.find? (·.field == g)).map (·.value)

/-- Flags leave the value of the last one in a field, and keep a field that none of them names. -/
theorem MicroWord.read_putFlags (w : MicroWord) (flags : List Flag) {g : Field}
    (hg : g ∈ Field.layout) :
    (w.putFlags flags).read g = (Flag.valueIn? flags g).getD (w.read g) := by
  unfold putFlags
  induction flags using List.reverseRecOn with
  | nil => rfl
  | append_singleton flags flag ih =>
      have hflag : flag.field ∈ Field.layout := by cases flag <;> decide
      rw [List.map_append, putAll_append, List.map_singleton, putAll_cons, putAll_nil]
      rw [Flag.valueIn?, List.reverse_append, List.reverse_singleton, List.singleton_append,
        List.find?_cons]
      rcases Field.layout_disjoint _ hflag _ hg with heq | hdis
      · have htrue : (flag.field == g) = true := beq_iff_eq.mpr heq
        rw [htrue, ← heq, read_put_self _ _ flag.value_fits.2]
        rfl
      · have hne : flag.field ≠ g := by
          rintro rfl
          simp only [Field.Disjoint, Field.shift] at hdis
          have := flag.field.width_pos
          omega
        have hfalse : (flag.field == g) = false := beq_eq_false_iff_ne.mpr hne
        rw [hfalse, read_put_of_disjoint _ hdis, ih]
        rfl

namespace Instruction

/-- A field of the layout holds the value of the last flag for it, or what the stages wrote. -/
theorem read_image (i : Instruction) {g : Field} (hg : g ∈ Field.layout) :
    i.image.read g = (Flag.valueIn? i.flags g).getD (i.stageImage.read g) := by
  rw [image_eq, MicroWord.read_putFlags _ _ hg]

/-- The stages write no flag field. -/
theorem read_stageImage (i : Instruction) {g : Field} (hg : g ∈ Field.flagFields) :
    i.stageImage.read g = 0 := by
  have halu : ∀ x ∈ i.alu.values, x.1.Disjoint g := fun x hx =>
    Field.stages_disjoint _ (i.alu.values_fit x hx).1 _ hg
  have hoperand : ∀ x ∈ i.operand.values, x.1.Disjoint g := fun x hx =>
    Field.stages_disjoint _ (i.operand.values_fit x hx).1 _ hg
  rw [stageImage, MicroWord.read_putAll_of_disjoint _ _ halu,
    MicroWord.read_putAll_of_disjoint _ _ hoperand, MicroWord.read_zero]

/-- No regular instruction is a jump. -/
theorem jumpKind?_image (i : Instruction) : i.image.jumpKind? = none := by
  rw [Option.eq_none_iff_forall_ne_some]
  intro kind hkind
  rw [MicroWord.jumpKind?_eq_some_iff, read_image i (by decide), read_stageImage i (by decide)]
    at hkind
  cases hfind : i.flags.reverse.find? (·.field == Field.flags2) with
  | none =>
      rw [Flag.valueIn?, hfind] at hkind
      cases kind <;> exact absurd hkind (by decide)
  | some flag =>
      have hfound := List.find?_some hfind
      have hfield : flag.field = Field.flags2 := beq_iff_eq.mp hfound
      rw [Flag.valueIn?, hfind] at hkind
      exact Flag.value_ne_code hfield kind hkind

end Instruction

end Microcode
