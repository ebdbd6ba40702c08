import Microcode.Proofs.Instruction.Stages
import Mathlib.Data.List.Nodup

/-!
# Microcode.Proofs.Instruction.Fields

The word of an instruction, field by field.

`Instruction.EncodedBy` says what stands in every field of the word of an instruction, without an
order in which the fields are written.  The bank address is the one place where the two stages
meet: the source of the operand stage applies to it first, then the destination of the ALU stage.
The image of an instruction is the only word of that kind (`Instruction.encodedBy_iff`).
-/

namespace Microcode

/-! ## the parts of an instruction -/

def Operand.temp? : Operand → Option Temp
  | .nop => none
  | .load temp _ => some temp

def Operand.source? : Operand → Option OperandSource
  | .nop => none
  | .load _ source => some source

def Alu.dest? : Alu → Option AluDest
  | .nop => none
  | .carry _ => none
  | .assign dest _ => some dest

/-- The code of the operation, 0 without one. -/
def Alu.code : Alu → Nat
  | .nop => 0
  | .carry op => op.code
  | .assign _ op => op.code

/-- A bank address after a reference is applied to it: a register replaces it, an alias replaces
its last bit. -/
def BankRef.applyTo (address : Nat) : BankRef → Nat
  | .register r => r.index
  | .alias a => 2 * (address / 2) + a.high

namespace Instruction

/-- The select code: that of a destination that is an alias, or else that of a source that is
one. -/
def select (i : Instruction) : Nat :=
  match i.alu.dest?, i.operand.source? with
  | some (.bank (.alias d)), _ => d.select
  | _, some (.bank (.alias s)) => s.select
  | _, _ => 0

/-- The bank address that the source leaves. -/
def sourceAddress (i : Instruction) : Nat :=
  match i.operand.source? with
  | some (.bank ref) => ref.applyTo 0
  | _ => 0

/-- The bank address that the destination leaves after the source. -/
def address (i : Instruction) : Nat :=
  match i.alu.dest? with
  | some (.bank ref) => ref.applyTo i.sourceAddress
  | _ => i.sourceAddress

/-- The word has the fields of the instruction, and no other bit is set. -/
structure EncodedBy (i : Instruction) (w : MicroWord) : Prop where
  ldT1 : w.read .ldT1 = 1 ↔ i.operand.temp? = some .t1
  ldT2 : w.read .ldT2 = 1 ↔ i.operand.temp? = some .t2
  muxIn : w.read .muxIn = 1 ↔ ∃ ref, i.operand.source? = some (.bank ref)
  rbWe : w.read .rbWe = 1 ↔ ∃ ref, i.alu.dest? = some (.bank ref)
  doWe : w.read .doWe = 1 ↔ i.alu.dest? = some .dataOut
  aluOp : w.read .aluOp = i.alu.code
  rbAddrSel : w.read .rbAddrSel = i.select
  rbAddr : w.read .rbAddr = i.address
  flags : ∀ flag ∈ i.flags, w.read flag.field = flag.value
  rest : ∀ k, (∀ f ∈ Field.stages, ¬f.Contains k) → (∀ flag ∈ i.flags, ¬flag.field.Contains k) →
    w.bits.getLsbD k = false

/-! ## the image -/

/-- What the two stages of an instruction write, taken together. -/
theorem after_stages (i : Instruction) :
    i.alu.after i.operand.stages =
      { t1 := i.operand.temp? = some .t1
        t2 := i.operand.temp? = some .t2
        muxIn := i.operand.source?.any (· ≠ .dataIn)
        select := i.select
        address := i.address
        doWe := i.alu.dest? = some .dataOut
        rbWe := i.alu.dest?.any (· ≠ .dataOut)
        op := i.alu.code } := by
  obtain ⟨operand, alu, flags⟩ := i
  obtain _ | ⟨temp, (r | s) | _⟩ := operand <;>
    obtain _ | op | ⟨(r' | d) | _, op⟩ := alu <;>
    simp [Alu.after, Operand.stages, Operand.temp?, Operand.source?, Alu.dest?, Alu.code, select,
      address, sourceAddress, BankRef.applyTo, BankRef.select, BankRef.address,
      Bool.beq_eq_decide_eq]

theorem read_rbAddrSel_image (i : Instruction) : i.image.read .rbAddrSel = i.select :=
  congrArg Stages.select (i.stages_image.trans i.after_stages)

theorem read_rbAddr_image (i : Instruction) : i.image.read .rbAddr = i.address :=
  congrArg Stages.address (i.stages_image.trans i.after_stages)

theorem read_aluOp_image (i : Instruction) : i.image.read .aluOp = i.alu.code :=
  congrArg Stages.op (i.stages_image.trans i.after_stages)

theorem drives_rbWe_image (i : Instruction) :
    i.image.drives .rbWe = i.alu.dest?.any (· ≠ .dataOut) :=
  congrArg Stages.rbWe (i.stages_image.trans i.after_stages)

/-- A field that one flag of the instruction writes holds the value of that flag. -/
theorem read_image_flag {i : Instruction} (h : i.flags.Pairwise fun a b => a.field ≠ b.field)
    {flag : Flag} (hflag : flag ∈ i.flags) : i.image.read flag.field = flag.value := by
  have hfind : i.flags.reverse.find? (·.field == flag.field) = some flag := by
    cases hlast : i.flags.reverse.find? (·.field == flag.field) with
    | none =>
        have hnone := List.find?_eq_none.mp hlast flag (List.mem_reverse.mpr hflag)
        exact absurd (beq_self_eq_true _) hnone
    | some last =>
        have hmem := List.mem_reverse.mp (List.mem_of_find?_eq_some hlast)
        have hfield : last.field = flag.field := by simpa using List.find?_some hlast
        rw [List.inj_on_of_nodup_map (List.pairwise_map.mpr h) hmem hflag hfield]
  rw [read_image i (Field.flagFields_subset flag.value_fits.1), Flag.valueIn?, hfind]
  rfl

end Instruction

/-- Writing fields keeps the bits outside of them. -/
theorem MicroWord.getLsbD_putAll_of_not_contains (w : MicroWord) {values : List (Field × Nat)}
    {k : Nat} (h : ∀ x ∈ values, ¬x.1.Contains k) :
    (w.putAll values).bits.getLsbD k = w.bits.getLsbD k := by
  induction values generalizing w with
  | nil => rfl
  | cons x values ih =>
      rw [List.forall_mem_cons] at h
      rw [putAll_cons, ih _ h.2, getLsbD_put, if_neg h.1]

namespace Instruction

/-- The image of an instruction has its fields. -/
theorem encodedBy_image {i : Instruction} (h : i.flags.Pairwise fun a b => a.field ≠ b.field) :
    i.EncodedBy i.image := by
  have hstages := i.stages_image.trans i.after_stages
  have hline : ∀ (line : ControlLine) {p : Prop} [Decidable p], i.image.drives line = decide p →
      (i.image.read line.field = 1 ↔ p) := by
    intro line p _ hdrives
    rwa [MicroWord.drives_eq, decide_eq_decide] at hdrives
  have hsource : ∀ source? : Option OperandSource, source?.any (· ≠ .dataIn) = true ↔
      ∃ ref, source? = some (.bank ref) := by
    rintro (_ | _ | _) <;> simp
  have hdest : ∀ dest? : Option AluDest, dest?.any (· ≠ .dataOut) = true ↔
      ∃ ref, dest? = some (.bank ref) := by
    rintro (_ | _ | _) <;> simp
  exact {
    ldT1 := hline .ldT1 (congrArg Stages.t1 hstages)
    ldT2 := hline .ldT2 (congrArg Stages.t2 hstages)
    muxIn := by
      rw [← hsource]
      exact hline .muxIn ((congrArg Stages.muxIn hstages).trans Bool.decide_eq_true.symm)
    rbWe := by
      rw [← hdest]
      exact hline .rbWe (i.drives_rbWe_image.trans Bool.decide_eq_true.symm)
    doWe := hline .doWe (congrArg Stages.doWe hstages)
    aluOp := i.read_aluOp_image
    rbAddrSel := i.read_rbAddrSel_image
    rbAddr := i.read_rbAddr_image
    flags := fun flag hflag => read_image_flag h hflag
    rest := by
      intro k hrest hflags
      have hvalues : ∀ x ∈ i.values, ¬x.1.Contains k := by
        intro x hx
        rw [values, List.mem_append, List.mem_append, List.mem_map] at hx
        rcases hx with (hx | hx) | ⟨flag, hflag, rfl⟩
        · exact hrest _ (i.operand.values_fit x hx).1
        · exact hrest _ (i.alu.values_fit x hx).1
        · exact hflags flag hflag
      rw [image, MicroWord.getLsbD_putAll_of_not_contains _ hvalues]
      exact BitVec.getLsbD_zero
  }

/-! ## no other word -/

/-- The fields of an instruction are those of one word only. -/
theorem EncodedBy.unique {i : Instruction} {u w : MicroWord} (hu : i.EncodedBy u)
    (hw : i.EncodedBy w) : u = w := by
  -- a field of one bit holds 0 or 1
  have hbit : ∀ {f : Field} {p : Prop}, f.width = 1 → (u.read f = 1 ↔ p) → (w.read f = 1 ↔ p) →
      u.read f = w.read f := by
    intro f p hwidth hu hw
    have hult := u.read_lt f
    have hwlt := w.read_lt f
    rw [hwidth] at hult hwlt
    have hiff := hu.trans hw.symm
    omega
  have hstages : ∀ f ∈ Field.stages, u.read f = w.read f := by
    have haddress : u.read .rbAddr = w.read .rbAddr := hu.rbAddr.trans hw.rbAddr.symm
    have hlast : (u.drives .rbAddrMsb).toNat = (w.drives .rbAddrMsb).toNat := by
      rw [← u.read_rbAddr_mod, ← w.read_rbAddr_mod, haddress]
    rw [← u.read_field, ← w.read_field] at hlast
    simp only [Field.stages, List.forall_mem_cons]
    exact ⟨hbit rfl hu.ldT1 hw.ldT1, hbit rfl hu.ldT2 hw.ldT2, hbit rfl hu.muxIn hw.muxIn,
      hu.rbAddrSel.trans hw.rbAddrSel.symm, haddress, hlast, hbit rfl hu.doWe hw.doWe,
      hbit rfl hu.rbWe hw.rbWe, hu.aluOp.trans hw.aluOp.symm,
      List.forall_mem_nil _⟩
  apply MicroWord.eq_of_getLsbD
  intro k _
  by_cases hk : ∃ f ∈ Field.stages, f.Contains k
  · obtain ⟨f, hf, hin⟩ := hk
    rw [u.getLsbD_eq_testBit_read hin, w.getLsbD_eq_testBit_read hin, hstages f hf]
  by_cases hflag : ∃ flag ∈ i.flags, flag.field.Contains k
  · obtain ⟨flag, hmem, hin⟩ := hflag
    rw [u.getLsbD_eq_testBit_read hin, w.getLsbD_eq_testBit_read hin, hu.flags flag hmem,
      hw.flags flag hmem]
  · push Not at hk hflag
    rw [hu.rest k hk hflag, hw.rest k hk hflag]

/-- The image of an instruction is the word with its fields. -/
theorem encodedBy_iff {i : Instruction} (h : i.flags.Pairwise fun a b => a.field ≠ b.field)
    {w : MicroWord} : i.EncodedBy w ↔ w = i.image := by
  constructor
  · exact fun hw => hw.unique (encodedBy_image h)
  · rintro rfl
    exact encodedBy_image h

end Instruction

end Microcode
