import Microcode.Proofs.Instruction.Disassembly

/-!
# Microcode.Proofs.Instruction.Canonical

Words that survive being written out and read back.

The text of a word shows its flags and as much of its stages as `MicroWord.shown` holds.  A word is
`MicroWord.Canonical` when its text can be read and shows all of it.  Exactly these words come back
from their text (`MicroWord.parse_disassemble_iff`).
-/

namespace Microcode

open Result

/-! ## what the text shows -/

/-- An operation has a code of its own. -/
theorem AluOp.ofCode?_eq_some_iff {n : Nat} {op : AluOp} : ofCode? n = some op ↔ n = op.code :=
  find?_code_eq_some_iff fun op => by cases op <;> rfl

/-- A carry operation has a code of its own. -/
theorem CarryOp.ofCode?_eq_some_iff {n : Nat} {op : CarryOp} :
    ofCode? n = some op ↔ n = op.code :=
  find?_code_eq_some_iff fun op => by cases op <;> rfl

/-- A result written to the bank register that the operand was read from, if any. -/
theorem Alu.after_bank {s : Stages} {ref : BankRef}
    (hs : s.select = 0 ∧ s.address = 0 ∨ s.select = ref.select ∧ s.address = ref.address)
    (op : AluOp) :
    (Alu.assign (.bank ref) op).after s =
      { s with select := ref.select, address := ref.address, rbWe := true, op := op.code } := by
  obtain r | a := ref
  · have hselect : s.select = 0 := by rcases hs with hs | hs <;> exact hs.1
    simp [after, BankRef.select, BankRef.address, hselect]
  · have hhigh : a.high < 2 := a.select_lt.2
    have haddress : 2 * (s.address / 2) + a.high = a.high := by
      simp only [BankRef.address] at hs
      omega
    simp [after, BankRef.select, BankRef.address, haddress]

namespace MicroWord

/-- The bank address as far as the text shows it. -/
def bankAddress (w : MicroWord) : Nat :=
  if w.read .rbAddrSel = 0 then w.read .rbAddr else (w.drives .rbAddrMsb).toNat

/-- The bank register that is shown has the select code of the word. -/
theorem select_of_bankRef? {w : MicroWord} {ref : BankRef} (h : w.bankRef? = some ref) :
    ref.select = w.read .rbAddrSel ∧ ref.address = w.bankAddress := by
  unfold bankRef? at h
  unfold bankAddress
  split at h
  · next hzero =>
      obtain ⟨r, hr, rfl⟩ := Option.map_eq_some_iff.mp h
      have hindex := List.find?_some hr
      rw [if_pos hzero, hzero]
      exact ⟨rfl, beq_iff_eq.mp hindex⟩
  · next hne =>
      obtain ⟨a, ha, rfl⟩ := Option.map_eq_some_iff.mp h
      have hcodes := List.find?_some ha
      rw [Bool.and_eq_true, beq_iff_eq, beq_iff_eq] at hcodes
      rw [if_neg hne]
      exact hcodes

/-- Whether the text shows a load from the bank. -/
def showsLoad (w : MicroWord) : Bool := w.drives .muxIn && (w.drives .ldT1 || w.drives .ldT2)

/-- The stages of a word as far as its text shows them. -/
def shown (w : MicroWord) : Stages where
  t1 := w.drives .ldT1
  t2 := w.drives .ldT2
  muxIn := w.showsLoad
  select := if w.showsLoad || w.drives .rbWe then w.read .rbAddrSel else 0
  address := if w.showsLoad || w.drives .rbWe then w.bankAddress else 0
  doWe := w.drives .doWe && !w.drives .rbWe
  rbWe := w.drives .rbWe
  op := w.read .aluOp

/-- What a load shows. -/
theorem stages_load {w : MicroWord} {source : OperandSource} (h : w.source? = some source)
    (temp : Temp) :
    (Operand.load temp source).stages =
      { t1 := temp == .t1
        t2 := temp == .t2
        muxIn := w.drives .muxIn
        select := if w.drives .muxIn then w.read .rbAddrSel else 0
        address := if w.drives .muxIn then w.bankAddress else 0 } := by
  unfold source? at h
  cases hmux : w.drives .muxIn with
  | false =>
      rw [hmux] at h
      rw [← Option.some.inj h]
      rfl
  | true =>
      rw [hmux] at h
      obtain ⟨ref, href, rfl⟩ := Option.map_eq_some_iff.mp h
      obtain ⟨hselect, haddress⟩ := select_of_bankRef? href
      simp only [Operand.stages, hselect, haddress, if_true]

/-- What the operand stage shows. -/
theorem stages_operand? {w : MicroWord} {o : Operand} (h : w.operand? = some o) :
    o.stages =
      { t1 := w.drives .ldT1
        t2 := w.drives .ldT2
        muxIn := w.showsLoad
        select := if w.showsLoad then w.read .rbAddrSel else 0
        address := if w.showsLoad then w.bankAddress else 0 } := by
  unfold operand? at h
  unfold showsLoad
  split at h
  · next ht1 ht2 =>
      rw [← Option.some.inj h, ht1, ht2, Bool.or_false, Bool.and_false]
      rfl
  · next ht1 ht2 =>
      obtain ⟨source, hsource, rfl⟩ := Option.map_eq_some_iff.mp h
      rw [stages_load hsource, ht1, ht2, Bool.true_or, Bool.and_true]
      rfl
  · next ht1 ht2 =>
      obtain ⟨source, hsource, rfl⟩ := Option.map_eq_some_iff.mp h
      rw [stages_load hsource, ht1, ht2, Bool.false_or, Bool.and_true]
      rfl
  · contradiction

/-- What both stages show. -/
theorem after_stages {w : MicroWord} {o : Operand} {a : Alu} (ho : w.operand? = some o)
    (ha : w.alu? = some a) : a.after o.stages = w.shown := by
  have hstages := stages_operand? ho
  unfold alu? at ha
  unfold shown
  split at ha
  · next hbank =>
      simp only [Option.bind_eq_bind, Option.bind_eq_some_iff, Option.pure_def,
        Option.some.injEq] at ha
      obtain ⟨ref, href, op, hop, rfl⟩ := ha
      obtain ⟨hselect, haddress⟩ := select_of_bankRef? href
      have hfree : o.stages.select = 0 ∧ o.stages.address = 0 ∨
          o.stages.select = ref.select ∧ o.stages.address = ref.address := by
        rw [hstages, hselect, haddress]
        cases w.showsLoad <;> simp
      rw [Alu.after_bank hfree, hstages, hselect, haddress, hbank, AluOp.ofCode?_eq_some_iff.mp hop]
      simp
  · next hbank =>
      rw [Bool.not_eq_true] at hbank
      rw [hbank, Bool.or_false, Bool.not_false, Bool.and_true]
      split at ha
      · next hdo =>
          obtain ⟨op, hop, rfl⟩ := Option.map_eq_some_iff.mp ha
          rw [hdo, Alu.after, hstages, AluOp.ofCode?_eq_some_iff.mp hop]
      · next hdo =>
          rw [Bool.not_eq_true] at hdo
          rw [hdo]
          split at ha
          · next hzero =>
              rw [← Option.some.inj ha, Alu.after, hstages, hzero]
          · obtain ⟨op, hop, rfl⟩ := Option.map_eq_some_iff.mp ha
            rw [Alu.after, hstages, CarryOp.ofCode?_eq_some_iff.mp hop]

/-- The flags that a plain word shows say what its flag fields hold. -/
theorem valueIn?_flags {w : MicroWord} (h : w.jumpKind? = none) {g : Field}
    (hg : g ∈ Field.flagFields) : (Flag.valueIn? w.flags g).getD 0 = w.read g := by
  have hvalues : ∀ g ∈ Field.flagFields, ∀ n < 2 ^ g.width,
      (g = Field.flags2 → JumpKind.ofCode? n = none) →
        ((Flag.all.reverse.find? fun flag => decide (n = flag.value ∧ flag.field = g)).map
          (·.value)).getD 0 = n := by decide
  have hfind : Flag.valueIn? w.flags g =
      (Flag.all.reverse.find? fun flag => decide (w.read g = flag.value ∧ flag.field = g)).map
        (·.value) := by
    rw [Flag.valueIn?, flags, ← List.filter_reverse, List.find?_filter]
    congr 2
    funext flag
    rw [decide_eq_decide, beq_iff_eq, beq_iff_eq]
    exact and_congr_left fun hfield => by rw [hfield]
  rw [hfind]
  refine hvalues g hg _ (w.read_lt g) ?_
  rintro rfl
  exact h

/-! ## canonical words -/

/-- The words of which the text shows everything. -/
structure Canonical (w : MicroWord) : Prop where
  /-- The word is no jump. -/
  flags2_ne : w.read .flags2 ≠ 0b010 ∧ w.read .flags2 ≠ 0b100
  /-- Bits 13 to 10 are zero. -/
  spare_eq : w.read .spare = 0
  one_temp : ¬(w.drives .ldT1 = true ∧ w.drives .ldT2 = true)
  muxIn_loads : w.drives .muxIn = true → w.drives .ldT1 = true ∨ w.drives .ldT2 = true
  one_dest : ¬(w.drives .rbWe = true ∧ w.drives .doWe = true)
  /-- With a destination, the ALU code is that of an operation with a destination. -/
  op_assigned : w.drives .rbWe = true ∨ w.drives .doWe = true →
    ∃ op : AluOp, w.read .aluOp = op.code
  /-- Without one, it is 0 or that of a carry operation. -/
  op_alone : w.drives .rbWe = false → w.drives .doWe = false →
    w.read .aluOp = 0 ∨ ∃ op : CarryOp, w.read .aluOp = op.code
  /-- The bank is not addressed without need. -/
  bank_unused : w.drives .muxIn = false → w.drives .rbWe = false →
    w.read .rbAddrSel = 0 ∧ w.read .rbAddr = 0
  /-- Where the opcode gives the bank address, bits 18 to 16 are zero, and so is bit 15 unless it
  picks a register of a pair. -/
  alias_address : w.read .rbAddrSel ≠ 0 →
    w.read .rbAddrTop = 0 ∧ (w.drives .rbAddrMsb = false ∨ w.read .rbAddrSel = 0b11)

/-- When there is an operand stage. -/
theorem isSome_operand?_iff (w : MicroWord) :
    w.operand?.isSome = true ↔
      ¬(w.drives .ldT1 = true ∧ w.drives .ldT2 = true) ∧
        (w.showsLoad = true → w.bankRef?.isSome = true) := by
  unfold operand? source? showsLoad
  cases w.drives .ldT1 <;> cases w.drives .ldT2 <;> cases w.drives .muxIn <;> simp

/-- When there is an ALU stage. -/
theorem isSome_alu?_iff (w : MicroWord) :
    w.alu?.isSome = true ↔
      (w.drives .rbWe = true → w.bankRef?.isSome = true) ∧
        (w.drives .rbWe = true ∨ w.drives .doWe = true → ∃ op : AluOp, w.read .aluOp = op.code) ∧
          (w.drives .rbWe = false → w.drives .doWe = false →
            w.read .aluOp = 0 ∨ ∃ op : CarryOp, w.read .aluOp = op.code) := by
  have halu : (AluOp.ofCode? (w.read .aluOp)).isSome = true ↔
      ∃ op : AluOp, w.read .aluOp = op.code := by
    simp only [Option.isSome_iff_exists, AluOp.ofCode?_eq_some_iff]
  have hcarry : (CarryOp.ofCode? (w.read .aluOp)).isSome = true ↔
      ∃ op : CarryOp, w.read .aluOp = op.code := by
    simp only [Option.isSome_iff_exists, CarryOp.ofCode?_eq_some_iff]
  rw [← halu, ← hcarry]
  unfold alu?
  cases w.drives .rbWe with
  | true => cases w.bankRef? <;> cases AluOp.ofCode? (w.read .aluOp) <;> simp
  | false =>
      cases w.drives .doWe with
      | true => simp
      | false => by_cases hzero : w.read .aluOp = 0 <;> simp [hzero]

/-- When the text shows every load from the bank. -/
theorem showsLoad_eq_iff (w : MicroWord) :
    w.showsLoad = w.drives .muxIn ↔
      (w.drives .muxIn = true → w.drives .ldT1 = true ∨ w.drives .ldT2 = true) := by
  unfold showsLoad
  cases w.drives .muxIn <;> simp

/-- When the text shows the stages as they are. -/
theorem shown_eq_iff (w : MicroWord) :
    w.shown = w.stages ↔
      (w.drives .muxIn = true → w.drives .ldT1 = true ∨ w.drives .ldT2 = true) ∧
        ¬(w.drives .rbWe = true ∧ w.drives .doWe = true) ∧
          if w.showsLoad || w.drives .rbWe then w.bankAddress = w.read .rbAddr
          else w.read .rbAddrSel = 0 ∧ w.read .rbAddr = 0 := by
  have hdest : (w.drives .doWe && !w.drives .rbWe) = w.drives .doWe ↔
      ¬(w.drives .rbWe = true ∧ w.drives .doWe = true) := by
    cases w.drives .rbWe <;> cases w.drives .doWe <;> decide
  unfold shown stages
  rw [Stages.mk.injEq, showsLoad_eq_iff, hdest]
  split
  · constructor
    · rintro ⟨-, -, hmux, -, haddress, hdest, -, -⟩
      exact ⟨hmux, hdest, haddress⟩
    · rintro ⟨hmux, hdest, haddress⟩
      exact ⟨rfl, rfl, hmux, rfl, haddress, hdest, rfl, rfl⟩
  · constructor
    · rintro ⟨-, -, hmux, hselect, haddress, hdest, -, -⟩
      exact ⟨hmux, hdest, hselect.symm, haddress.symm⟩
    · rintro ⟨hmux, hdest, hselect, haddress⟩
      exact ⟨rfl, rfl, hmux, hselect.symm, haddress.symm, hdest, rfl, rfl⟩

/-- When a word is no jump. -/
theorem jumpKind?_eq_none_iff (w : MicroWord) :
    w.jumpKind? = none ↔ w.read .flags2 ≠ 0b010 ∧ w.read .flags2 ≠ 0b100 := by
  rw [Option.eq_none_iff_forall_ne_some]
  simp only [ne_eq, jumpKind?_eq_some_iff]
  constructor
  · intro h
    exact ⟨h .call, h .condCall⟩
  · rintro ⟨hcall, hcond⟩ kind
    cases kind with
    | call => exact hcall
    | condCall => exact hcond

/-- When the text shows all of the bank address. -/
theorem bankAddress_eq_iff (w : MicroWord) :
    w.bankAddress = w.read .rbAddr ↔ (w.read .rbAddrSel ≠ 0 → w.read .rbAddrTop = 0) := by
  have hread := w.read_rbAddr
  have hbit : (w.drives .rbAddrMsb).toNat < 2 := Bool.toNat_lt _
  unfold bankAddress
  split
  · next hzero => simp [hzero]
  · next hne =>
      constructor
      · intro h _
        omega
      · intro h
        have htop := h hne
        omega

/-- A word is canonical when its text has two stages, shows them as they are, and leaves nothing
else out. -/
theorem canonical_iff (w : MicroWord) :
    w.Canonical ↔
      w.jumpKind? = none ∧ w.read .spare = 0 ∧ w.operand?.isSome = true ∧ w.alu?.isSome = true ∧
        w.shown = w.stages := by
  rw [jumpKind?_eq_none_iff, isSome_operand?_iff, isSome_alu?_iff, shown_eq_iff,
    bankAddress_eq_iff, isSome_bankRef?_iff]
  constructor
  · intro h
    have hnamed : w.read .rbAddrSel ≠ 0 → w.drives .rbAddrMsb = false ∨ w.read .rbAddrSel = 3 :=
      fun hne => (h.alias_address hne).2
    refine ⟨h.flags2_ne, h.spare_eq, ⟨h.one_temp, fun _ => hnamed⟩,
      ⟨fun _ => hnamed, h.op_assigned, h.op_alone⟩, h.muxIn_loads, h.one_dest, ?_⟩
    split
    · exact fun hne => (h.alias_address hne).1
    · next hunused =>
        rw [Bool.or_eq_true, not_or, Bool.not_eq_true, Bool.not_eq_true] at hunused
        refine h.bank_unused ?_ hunused.2
        rw [← hunused.1]
        exact (w.showsLoad_eq_iff.mpr h.muxIn_loads).symm
  · rintro ⟨hflags2, hspare, ⟨htemp, hload⟩, ⟨hbank, hassigned, halone⟩, hloads, hdest, haddr⟩
    have hshows := w.showsLoad_eq_iff.mpr hloads
    refine ⟨hflags2, hspare, htemp, hloads, hdest, hassigned, halone, ?_, ?_⟩
    · intro hmuxIn hrbWe
      rw [if_neg (by rw [hshows, hmuxIn, hrbWe]; decide)] at haddr
      exact haddr
    · intro hne
      split at haddr
      · next hused =>
          rw [Bool.or_eq_true] at hused
          exact ⟨haddr hne, hused.elim (hload · hne) (hbank · hne)⟩
      · exact absurd haddr.1 hne

/-- A word comes back from its text exactly when it is canonical. -/
theorem parse_disassemble_iff (w : MicroWord) :
    Line.parse w.disassemble = .ok (some (.word w)) ↔ w.Canonical := by
  have hplain : w.jumpKind? = none → w.disassemble = w.plainText := by
    intro h
    rw [disassemble, h]
  rw [canonical_iff]
  constructor
  · intro h
    have hjump := Line.jumpKind?_of_parse h
    rw [hplain hjump, parse_plainText_iff] at h
    obtain ⟨i, hi, himage⟩ := h
    simp only [instruction?, Option.bind_eq_bind, Option.bind_eq_some_iff, Option.pure_def,
      Option.some.injEq] at hi
    obtain ⟨o, ho, a, ha, rfl⟩ := hi
    refine ⟨hjump, ?_, by rw [ho]; rfl, by rw [ha]; rfl, ?_⟩
    · rw [← himage, Instruction.read_spare_image]
    · rw [← after_stages ho ha, ← himage, Instruction.stages_image]
  · rintro ⟨hjump, hspare, hoperand, halu, hshown⟩
    obtain ⟨o, ho⟩ := Option.isSome_iff_exists.mp hoperand
    obtain ⟨a, ha⟩ := Option.isSome_iff_exists.mp halu
    rw [hplain hjump, parse_plainText_iff]
    refine ⟨{ operand := o, alu := a, flags := w.flags }, ?_, eq_iff_stages.mpr ⟨?_, ?_, ?_⟩⟩
    · rw [instruction?, ho, ha]
      rfl
    · rw [Instruction.stages_image, after_stages ho ha, hshown]
    · rw [Instruction.read_spare_image, hspare]
    · intro g hg
      rw [Instruction.read_image _ (Field.flagFields_subset hg), Instruction.read_stageImage _ hg]
      exact valueIn?_flags hjump hg

end MicroWord

end Microcode
