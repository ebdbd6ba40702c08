import Microcode.Proofs.Instruction.Encoding

/-!
# Microcode.Proofs.Instruction.Stages

What a word says about the two stages of an instruction.

`MicroWord.stages` collects the control lines and fields that the operand stage and the ALU stage
write.  Writing one of these fields updates one entry of the collection, so the stages of an
instruction's word can be computed (`Instruction.stages_image`).  Together with the flag fields and
the spare bits they determine a word (`MicroWord.eq_iff_stages`).
-/

namespace Microcode

/-- The bank address without its last bit, which is the pair bit: bits 18 to 16. -/
def Field.rbAddrTop : Field :=
  { name := "rb_addr_top", msb := 18, width := 3, msb_lt := rbAddr.msb_lt,
    width_pos := Nat.succ_pos 2 }

/-- The control lines and fields of the two stages. -/
structure Stages where
  t1 : Bool := false
  t2 : Bool := false
  muxIn : Bool := false
  select : Nat := 0
  address : Nat := 0
  doWe : Bool := false
  rbWe : Bool := false
  op : Nat := 0
deriving DecidableEq

namespace MicroWord

/-- The stages of a word. -/
def stages (w : MicroWord) : Stages where
  t1 := w.drives .ldT1
  t2 := w.drives .ldT2
  muxIn := w.drives .muxIn
  select := w.read .rbAddrSel
  address := w.read .rbAddr
  doWe := w.drives .doWe
  rbWe := w.drives .rbWe
  op := w.read .aluOp

/-! ## one field -/

/-- A word sets a line when the line's field reads as 1. -/
theorem drives_eq (w : MicroWord) (line : ControlLine) :
    w.drives line = decide (w.read line.field = 1) := by
  rw [read_field]
  cases w.drives line <;> rfl

/-- A word sets a line whose field was written with 1, and not one written with 0. -/
theorem drives_put_self (w : MicroWord) (line : ControlLine) (bit : Bool) :
    (w.put line.field bit.toNat).drives line = bit := by
  have hfit : bit.toNat < 2 ^ line.field.width := by
    rw [line.field_eq.2]
    exact bit.toNat_lt
  rw [drives_eq, read_put_self _ _ hfit]
  cases bit <;> rfl

/-- Writing a field keeps the lines outside of it. -/
theorem drives_put_of_disjoint (w : MicroWord) {f : Field} {line : ControlLine}
    (h : f.Disjoint line.field) (value : Nat) : (w.put f value).drives line = w.drives line := by
  rw [drives_eq, read_put_of_disjoint w h, ← drives_eq]

/-- The pair bit is the last bit of the bank address. -/
theorem read_rbAddr (w : MicroWord) :
    w.read .rbAddr = 2 * w.read .rbAddrTop + (w.drives .rbAddrMsb).toNat := by
  rw [← read_field, read_eq, read_eq, read_eq]
  show w.toNat / 2 ^ 15 % 2 ^ 4 = 2 * (w.toNat / 2 ^ 16 % 2 ^ 3) + w.toNat / 2 ^ 15 % 2 ^ 1
  omega

theorem read_rbAddr_mod (w : MicroWord) :
    w.read .rbAddr % 2 = (w.drives .rbAddrMsb).toNat := by
  have hbit := (w.drives .rbAddrMsb).toNat_lt
  rw [read_rbAddr]
  omega

/-- Writing the pair bit replaces the last bit of the bank address. -/
theorem read_put_rbAddrMsb (w : MicroWord) {bit : Nat} (h : bit < 2) :
    (w.put .rbAddrMsb bit).read .rbAddr = 2 * (w.read .rbAddr / 2) + bit := by
  have htop : (w.put .rbAddrMsb bit).read .rbAddrTop = w.read .rbAddrTop :=
    read_put_of_disjoint w (by decide) bit
  have hlast : (w.put .rbAddrMsb bit).read .rbAddrMsb = bit := read_put_self w _ h
  have hbit : (w.drives .rbAddrMsb).toNat < 2 := Bool.toNat_lt _
  rw [read_rbAddr, htop, ← read_field, read_rbAddr]
  show 2 * w.read .rbAddrTop + (w.put .rbAddrMsb bit).read .rbAddrMsb = _
  rw [hlast]
  omega

theorem stages_put_ldT1 (w : MicroWord) :
    (w.put .ldT1 1).stages = { w.stages with t1 := true } := by
  have hself : (w.put .ldT1 1).drives .ldT1 = true := drives_put_self w .ldT1 true
  simp (disch := decide) only [stages, hself, drives_put_of_disjoint, read_put_of_disjoint]

theorem stages_put_ldT2 (w : MicroWord) :
    (w.put .ldT2 1).stages = { w.stages with t2 := true } := by
  have hself : (w.put .ldT2 1).drives .ldT2 = true := drives_put_self w .ldT2 true
  simp (disch := decide) only [stages, hself, drives_put_of_disjoint, read_put_of_disjoint]

theorem stages_put_muxIn (w : MicroWord) (bit : Bool) :
    (w.put .muxIn bit.toNat).stages = { w.stages with muxIn := bit } := by
  have hself : (w.put .muxIn bit.toNat).drives .muxIn = bit := drives_put_self w .muxIn bit
  simp (disch := decide) only [stages, hself, drives_put_of_disjoint, read_put_of_disjoint]

theorem stages_put_rbAddrSel (w : MicroWord) {n : Nat} (h : n < 2 ^ Field.rbAddrSel.width) :
    (w.put .rbAddrSel n).stages = { w.stages with select := n } := by
  simp (disch := decide) only [stages, read_put_self w _ h, drives_put_of_disjoint,
    read_put_of_disjoint]

theorem stages_put_rbAddr (w : MicroWord) {n : Nat} (h : n < 2 ^ Field.rbAddr.width) :
    (w.put .rbAddr n).stages = { w.stages with address := n } := by
  simp (disch := decide) only [stages, read_put_self w _ h, drives_put_of_disjoint,
    read_put_of_disjoint]

theorem stages_put_rbAddrMsb (w : MicroWord) {bit : Nat} (h : bit < 2) :
    (w.put .rbAddrMsb bit).stages =
      { w.stages with address := 2 * (w.stages.address / 2) + bit } := by
  simp (disch := decide) only [stages, read_put_rbAddrMsb w h, drives_put_of_disjoint,
    read_put_of_disjoint]

theorem stages_put_doWe (w : MicroWord) :
    (w.put .doWe 1).stages = { w.stages with doWe := true } := by
  have hself : (w.put .doWe 1).drives .doWe = true := drives_put_self w .doWe true
  simp (disch := decide) only [stages, hself, drives_put_of_disjoint, read_put_of_disjoint]

theorem stages_put_rbWe (w : MicroWord) :
    (w.put .rbWe 1).stages = { w.stages with rbWe := true } := by
  have hself : (w.put .rbWe 1).drives .rbWe = true := drives_put_self w .rbWe true
  simp (disch := decide) only [stages, hself, drives_put_of_disjoint, read_put_of_disjoint]

theorem stages_put_aluOp (w : MicroWord) {n : Nat} (h : n < 2 ^ Field.aluOp.width) :
    (w.put .aluOp n).stages = { w.stages with op := n } := by
  simp (disch := decide) only [stages, read_put_self w _ h, drives_put_of_disjoint,
    read_put_of_disjoint]

@[simp] theorem stages_zero : zero.stages = {} := by decide

end MicroWord

/-! ## the stages of an instruction -/

/-- How the bank is addressed by a reference: directly, or through a field of the opcode. -/
def BankRef.select : BankRef → Nat
  | .register _ => 0
  | .alias a => a.select

/-- The bank address of a reference; that of an alias only tells which register of a pair is
meant. -/
def BankRef.address : BankRef → Nat
  | .register r => r.index
  | .alias a => a.high

/-- What an operand stage writes. -/
def Operand.stages : Operand → Stages
  | .nop => {}
  | .load temp (.bank ref) =>
    { t1 := temp == .t1
      t2 := temp == .t2
      muxIn := true
      select := ref.select
      address := ref.address }
  | .load temp .dataIn => { t1 := temp == .t1, t2 := temp == .t2 }

/-- What an ALU stage leaves of the stages before it.  A register of the bank does not write the
select code, and an alias writes one bit of the address only. -/
def Alu.after (s : Stages) : Alu → Stages
  | .nop => s
  | .carry op => { s with op := op.code }
  | .assign (.bank (.register r)) op => { s with address := r.index, rbWe := true, op := op.code }
  | .assign (.bank (.alias a)) op =>
    { s with
      select := a.select
      address := 2 * (s.address / 2) + a.high
      rbWe := true
      op := op.code }
  | .assign .dataOut op => { s with doWe := true, op := op.code }

/-- The word of an operand stage has its stages. -/
theorem Operand.stages_putAll (o : Operand) :
    (MicroWord.zero.putAll o.values).stages = o.stages := by
  have htemp : ∀ (w : MicroWord) (temp : Temp), w.stages = {} →
      (w.put temp.field 1).stages = { t1 := temp == .t1, t2 := temp == .t2 } := by
    intro w temp hw
    cases temp with
    | t1 => rw [Temp.field, MicroWord.stages_put_ldT1, hw]; rfl
    | t2 => rw [Temp.field, MicroWord.stages_put_ldT2, hw]; rfl
  have hmux : ∀ w : MicroWord, (w.put .muxIn 1).stages = { w.stages with muxIn := true } :=
    fun w => w.stages_put_muxIn true
  have hdirect : ∀ w : MicroWord, (w.put .muxIn 0).stages = { w.stages with muxIn := false } :=
    fun w => w.stages_put_muxIn false
  cases o with
  | nop => exact MicroWord.stages_zero
  | load temp source =>
      cases source with
      | dataIn =>
          simp only [values, OperandSource.values, MicroWord.putAll_cons, MicroWord.putAll_nil,
            hdirect, htemp _ temp MicroWord.stages_zero, stages]
      | bank ref =>
          obtain r | a := ref
          · simp only [values, OperandSource.values, MicroWord.putAll_cons, MicroWord.putAll_nil,
              hmux, MicroWord.stages_put_rbAddr _ r.index_lt, MicroWord.stages_put_rbAddrSel _
              (show 0 < 2 ^ Field.rbAddrSel.width by decide), htemp _ temp MicroWord.stages_zero,
              stages, BankRef.select, BankRef.address]
          · simp only [values, OperandSource.values, MicroWord.putAll_cons, MicroWord.putAll_nil,
              hmux, MicroWord.stages_put_rbAddrMsb _ a.select_lt.2,
              MicroWord.stages_put_rbAddrSel _ a.select_lt.1, htemp _ temp MicroWord.stages_zero,
              stages, BankRef.select, BankRef.address, Nat.zero_div, Nat.mul_zero, Nat.zero_add]

/-- The word of an ALU stage, written over another word. -/
theorem Alu.stages_putAll (w : MicroWord) (a : Alu) :
    (w.putAll a.values).stages = a.after w.stages := by
  have hop : ∀ (w : MicroWord) (op : AluOp),
      (w.put .aluOp op.code).stages = { w.stages with op := op.code } := fun w op =>
    w.stages_put_aluOp (by cases op <;> decide)
  cases a with
  | nop => rfl
  | carry op => exact w.stages_put_aluOp (by cases op <;> decide)
  | assign dest op =>
      cases dest with
      | dataOut =>
          simp only [values, AluDest.values, MicroWord.putAll_append, MicroWord.putAll_cons,
            MicroWord.putAll_nil, hop, MicroWord.stages_put_doWe, after]
      | bank ref =>
          obtain r | a := ref
          · simp only [values, AluDest.values, MicroWord.putAll_append, MicroWord.putAll_cons,
              MicroWord.putAll_nil, hop, MicroWord.stages_put_rbWe,
              MicroWord.stages_put_rbAddr _ r.index_lt, after]
          · simp only [values, AluDest.values, MicroWord.putAll_append, MicroWord.putAll_cons,
              MicroWord.putAll_nil, hop, MicroWord.stages_put_rbWe,
              MicroWord.stages_put_rbAddrMsb _ a.select_lt.2,
              MicroWord.stages_put_rbAddrSel _ a.select_lt.1, after]

namespace Instruction

/-- Flags keep the fields that none of them writes. -/
theorem read_image_of_disjoint (i : Instruction) {g : Field}
    (h : ∀ f ∈ Field.flagFields, f.Disjoint g) : i.image.read g = i.stageImage.read g := by
  rw [image_eq, MicroWord.putFlags]
  refine MicroWord.read_putAll_of_disjoint _ _ fun x hx => ?_
  obtain ⟨flag, -, rfl⟩ := List.mem_map.mp hx
  exact h _ flag.value_fits.1

/-- The stages of an instruction's word are those that its two stages write. -/
theorem stages_image (i : Instruction) : i.image.stages = i.alu.after i.operand.stages := by
  have hread : ∀ g ∈ Field.stages, i.image.read g = i.stageImage.read g := by
    intro g hg
    refine i.read_image_of_disjoint fun f hf => ?_
    exact Or.symm (Field.stages_disjoint g hg f hf)
  have hline : ∀ line : ControlLine, line.field ∈ Field.stages →
      i.image.drives line = i.stageImage.drives line := by
    intro line hmem
    rw [MicroWord.drives_eq, hread _ hmem, ← MicroWord.drives_eq]
  have hflags : i.image.stages = i.stageImage.stages := by
    simp only [MicroWord.stages]
    rw [hline .ldT1 (by decide), hline .ldT2 (by decide), hline .muxIn (by decide),
      hline .doWe (by decide), hline .rbWe (by decide), hread .rbAddrSel (by decide),
      hread .rbAddr (by decide), hread .aluOp (by decide)]
  rw [hflags, stageImage, Alu.stages_putAll, Operand.stages_putAll]

/-- No instruction sets a spare bit. -/
theorem read_spare_image (i : Instruction) : i.image.read .spare = 0 := by
  have hstages : ∀ f ∈ Field.stages, f.Disjoint .spare := by decide
  have hoperand : ∀ x ∈ i.operand.values, x.1.Disjoint .spare := fun x hx =>
    hstages _ (i.operand.values_fit x hx).1
  have halu : ∀ x ∈ i.alu.values, x.1.Disjoint .spare := fun x hx =>
    hstages _ (i.alu.values_fit x hx).1
  rw [i.read_image_of_disjoint (by decide), stageImage, MicroWord.read_putAll_of_disjoint _ _ halu,
    MicroWord.read_putAll_of_disjoint _ _ hoperand, MicroWord.read_zero]

end Instruction

/-- A word is known from its stages, its spare bits and its flag fields. -/
theorem MicroWord.eq_iff_stages {u w : MicroWord} :
    u = w ↔ u.stages = w.stages ∧ u.read .spare = w.read .spare ∧
      ∀ g ∈ Field.flagFields, u.read g = w.read g := by
  constructor
  · rintro rfl
    exact ⟨rfl, rfl, fun _ _ => rfl⟩
  · rintro ⟨hstages, hspare, hflags⟩
    have hline : ∀ line : ControlLine, u.drives line = w.drives line →
        u.read line.field = w.read line.field := by
      intro line h
      rw [read_field, read_field, h]
    refine eq_of_read_eq Field.layout_covers fun g hg => ?_
    simp only [Field.layout, List.mem_cons, List.not_mem_nil, or_false] at hg
    rcases hg with rfl | rfl | rfl | rfl | rfl | rfl | rfl | rfl | rfl | rfl | rfl | rfl | rfl |
      rfl | rfl
    · exact hflags _ (by decide)
    · exact hflags _ (by decide)
    · exact hflags _ (by decide)
    · exact hflags _ (by decide)
    · exact hline .ldT1 (congrArg Stages.t1 hstages)
    · exact hline .ldT2 (congrArg Stages.t2 hstages)
    · exact hline .muxIn (congrArg Stages.muxIn hstages)
    · exact congrArg Stages.select hstages
    · exact congrArg Stages.address hstages
    · exact hflags _ (by decide)
    · exact hspare
    · exact hflags _ (by decide)
    · exact hline .doWe (congrArg Stages.doWe hstages)
    · exact hline .rbWe (congrArg Stages.rbWe hstages)
    · exact congrArg Stages.op hstages

end Microcode
