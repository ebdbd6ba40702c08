import Microcode.Instruction.Disassembly
import Microcode.Proofs.Instruction.Grammar
import Microcode.Proofs.Instruction.Stages
import Microcode.Proofs.Line.Parser

/-!
# Microcode.Proofs.Instruction.Disassembly

A word that is written out as source text, and read back.

What the text of a plain word says is `MicroWord.instruction?`: an instruction, or none when the
text has a part that no line may have.  Reading the text gives the word of that instruction
(`MicroWord.parse_plainText_iff`), since every name that is written is a token that is read as what
it names, and every code without a name is a token that is no name.
-/

namespace Microcode

open Result Text

/-! ## what the text says -/

namespace MicroWord

/-- The register that the bank address fields select, if it has a name. -/
def bankRef? (w : MicroWord) : Option BankRef :=
  if w.read .rbAddrSel = 0 then (Register.ofIndex? (w.read .rbAddr)).map .register
  else (Alias.ofSelect? (w.read .rbAddrSel) (w.drives .rbAddrMsb).toNat).map .alias

/-- What a temporary register is loaded from. -/
def source? (w : MicroWord) : Option OperandSource :=
  if w.drives .muxIn then w.bankRef?.map .bank else some .dataIn

/-- The operand stage of a word; there is none that loads both temporary registers. -/
def operand? (w : MicroWord) : Option Operand :=
  match w.drives .ldT1, w.drives .ldT2 with
  | false, false => some .nop
  | true, false => w.source?.map (.load .t1)
  | false, true => w.source?.map (.load .t2)
  | true, true => none

/-- The ALU stage of a word. -/
def alu? (w : MicroWord) : Option Alu :=
  if w.drives .rbWe then do
    return .assign (.bank (← w.bankRef?)) (← AluOp.ofCode? (w.read .aluOp))
  else if w.drives .doWe then (AluOp.ofCode? (w.read .aluOp)).map (.assign .dataOut)
  else if w.read .aluOp = 0 then some .nop
  else (CarryOp.ofCode? (w.read .aluOp)).map .carry

/-- The instruction that the text of a plain word says. -/
def instruction? (w : MicroWord) : Option Instruction := do
  return { operand := ← w.operand?, alu := ← w.alu?, flags := w.flags }

end MicroWord

/-! ## names -/

/-- The name of a bank reference is a token that is read as the reference, and nothing else. -/
theorem BankRef.name_spec (ref : BankRef) :
    isToken ref.name = true ∧ ofName? (lowered ref.name) = some ref ∧
      lowered ref.name ≠ "di" ∧ lowered ref.name ≠ "do" := by
  obtain r | a := ref
  · cases r <;> decide
  · cases a <;> decide

/-- The name of an operation is a token that is read as the operation. -/
theorem AluOp.name_spec (op : AluOp) :
    isToken op.name = true ∧ ofName? (lowered op.name) = some op := by
  cases op <;> decide

/-- The name of a carry operation is a token that is read as the operation. -/
theorem CarryOp.name_spec (op : CarryOp) :
    isToken op.name = true ∧ ofName? (lowered op.name) = some op ∧ lowered op.name ≠ "" ∧
      lowered op.name ≠ "nop" := by
  cases op <;> decide

/-- The token of a flag is a token, and in lower case. -/
theorem Flag.token_spec (flag : Flag) :
    isToken flag.token = true ∧ lowered flag.token = flag.token := by
  cases flag <;> decide

namespace MicroWord

/-- A bank register is shown by its name. -/
theorem bankName_of_bankRef? {w : MicroWord} {ref : BankRef} (h : w.bankRef? = some ref) :
    w.bankName = ref.name := by
  unfold bankRef? at h
  unfold bankName
  simp only [beq_iff_eq]
  split at h
  · next hselect =>
      obtain ⟨r, hr, rfl⟩ := Option.map_eq_some_iff.mp h
      rw [if_pos hselect, hr]
      rfl
  · next hselect =>
      obtain ⟨a, ha, rfl⟩ := Option.map_eq_some_iff.mp h
      rw [if_neg hselect, ha]
      rfl

/-- Only two select codes may lack a name, and they do when the pair bit is set. -/
theorem isSome_bankRef?_iff (w : MicroWord) :
    w.bankRef?.isSome = true ↔
      (w.read .rbAddrSel ≠ 0 → w.drives .rbAddrMsb = false ∨ w.read .rbAddrSel = 3) := by
  have hregisters : ∀ n < 16, (Register.ofIndex? n).isSome = true := by decide
  have haliases : ∀ n < 4, ∀ high : Bool, n ≠ 0 →
      ((Alias.ofSelect? n high.toNat).isSome = true ↔ high = false ∨ n = 3) := by decide
  unfold bankRef?
  split
  · next hzero => simp [hzero, hregisters _ (w.read_lt .rbAddr)]
  · next hne =>
      rw [Option.isSome_map, haliases _ (w.read_lt .rbAddrSel) _ hne]
      exact ⟨fun h _ => h, fun h => h hne⟩

/-- A register without a name is shown by its select code. -/
theorem bankName_of_bankRef?_eq_none {w : MicroWord} (h : w.bankRef? = none) :
    w.bankName = "ir1" ∨ w.bankName = "ir2" := by
  have hselect : w.read .rbAddrSel < 4 := w.read_lt .rbAddrSel
  have hunnamed := mt w.isSome_bankRef?_iff.mpr (by simp [h])
  rw [Classical.not_imp, not_or] at hunnamed
  obtain ⟨hne, -, hpair⟩ := hunnamed
  unfold bankRef? at h
  rw [if_neg hne, Option.map_eq_none_iff] at h
  unfold bankName
  simp only [beq_iff_eq]
  rw [if_neg hne, h]
  obtain hone | htwo : w.read .rbAddrSel = 1 ∨ w.read .rbAddrSel = 2 := by omega
  · left; rw [hone]; rfl
  · right; rw [htwo]; rfl

/-- What is shown for a bank register is a token that is read as the register. -/
theorem bankName_spec (w : MicroWord) :
    isToken w.bankName = true ∧ BankRef.ofName? (lowered w.bankName) = w.bankRef? ∧
      lowered w.bankName ≠ "di" ∧ lowered w.bankName ≠ "do" := by
  cases h : w.bankRef? with
  | some ref => rw [bankName_of_bankRef? h]; exact ref.name_spec
  | none => rcases bankName_of_bankRef?_eq_none h with heq | heq <;> rw [heq] <;> decide

/-- A word shows a name of the bank when it selects what the name stands for. -/
theorem bankName_eq_iff {w : MicroWord} {ref : BankRef} :
    w.bankName = ref.name ↔ w.bankRef? = some ref := by
  constructor
  · intro h
    rw [← w.bankName_spec.2.1, h]
    exact ref.name_spec.2.1
  · exact bankName_of_bankRef?

/-- A code without a name is shown as a token that begins with a digit. -/
theorem codeText_spec {code : Nat} (h : code < 64) :
    isToken (codeText code) = true ∧ (lowered (codeText code)).toList.head? = some '0' := by
  have hdigits : ∀ code < 64, (padded 2 6 code).all (fun c => c == '0' || c == '1') = true := by
    decide
  have hchars : (codeText code).toList = '0' :: 'b' :: padded 2 6 code := by
    simp [codeText, binary]
  constructor
  · rw [isToken_iff, hchars]
    refine ⟨List.cons_ne_nil _ _, fun c hc => ?_⟩
    rcases List.mem_cons.mp hc with rfl | hc
    · decide
    rcases List.mem_cons.mp hc with rfl | hc
    · decide
    have hdigit := List.all_eq_true.mp (hdigits code h) c hc
    rw [Bool.or_eq_true, beq_iff_eq, beq_iff_eq] at hdigit
    rcases hdigit with rfl | rfl <;> decide
  · rw [lowered, String.toList_ofList, hchars]
    rfl

/-- No operation has a name that begins with a digit. -/
theorem ofName?_of_head?_eq_zero {s : String} (h : s.toList.head? = some '0') :
    AluOp.ofName? s = none ∧ CarryOp.ofName? s = none := by
  have halu : ∀ op ∈ AluOp.all, op.name.toList.head? ≠ some '0' := by decide
  have hcarry : ∀ op ∈ CarryOp.all, op.name.toList.head? ≠ some '0' := by decide
  constructor
  · rw [AluOp.ofName?, List.find?_eq_none]
    rintro op hop heq
    exact halu op hop (by rw [beq_iff_eq.mp heq, h])
  · rw [CarryOp.ofName?, List.find?_eq_none]
    rintro op hop heq
    exact hcarry op hop (by rw [beq_iff_eq.mp heq, h])

/-! ## stages -/

/-- What is shown as the source of a load. -/
def sourceName (w : MicroWord) : String := if w.drives .muxIn then w.bankName else "DI"

theorem sourceName_spec (w : MicroWord) :
    isToken w.sourceName = true ∧ OperandSource.ofName? (lowered w.sourceName) = w.source? := by
  obtain ⟨htoken, hname, hdi, -⟩ := w.bankName_spec
  unfold sourceName source?
  cases w.drives .muxIn with
  | false =>
      simp only [Bool.false_eq_true, if_false]
      decide
  | true =>
      refine ⟨htoken, ?_⟩
      simp only [if_true, OperandSource.ofName?, hname, beq_iff_eq, hdi, if_false]
      cases w.bankRef? <;> rfl

/-- The tokens of the operand stage. -/
def operandNames (w : MicroWord) : List String :=
  match w.drives .ldT1, w.drives .ldT2 with
  | false, false => ["NOP"]
  | true, false => ["T1", w.sourceName]
  | false, true => ["T2", w.sourceName]
  | true, true => ["T1", "T2", w.sourceName]

theorem operandNames_tokens (w : MicroWord) :
    w.operandNames ≠ [] ∧ ∀ name ∈ w.operandNames, isToken name = true := by
  have htoken := w.sourceName_spec.1
  have hnames : isToken "NOP" = true ∧ isToken "T1" = true ∧ isToken "T2" = true := by decide
  unfold operandNames
  cases w.drives .ldT1 <;> cases w.drives .ldT2 <;> simp [htoken, hnames]

theorem toList_operandText (w : MicroWord) :
    w.operandText.toList = [' ', '=', ' '].intercalate (w.operandNames.map String.toList) := by
  have htext : w.operandText =
      match w.drives .ldT1, w.drives .ldT2 with
      | false, false => "NOP"
      | true, false => "T1 = " ++ w.sourceName
      | false, true => "T2 = " ++ w.sourceName
      | true, true => "T1 = T2 = " ++ w.sourceName := rfl
  rw [htext, operandNames]
  cases w.drives .ldT1 <;> cases w.drives .ldT2 <;> simp [List.intercalate_cons_cons]

/-- The text of the operand stage is read as the operand stage. -/
theorem parse_operandText_iff (w : MicroWord) {o : Operand} :
    Operand.parse w.operandText.toList = .ok o ↔ w.operand? = some o := by
  obtain ⟨hne, htokens⟩ := w.operandNames_tokens
  have hpieces : pieces '=' w.operandText.toList = w.operandNames.map lowered := by
    rw [toList_operandText]
    exact pieces_intercalate (.inl rfl) [' '] [' '] isBlank_of_mem_space isBlank_of_mem_space hne
      htokens
  have hnop : lowered "NOP" = "nop" := by decide
  have ht1 : Temp.ofName? (lowered "T1") = some .t1 := by decide
  have ht2 : Temp.ofName? (lowered "T2") = some .t2 := by decide
  rw [Operand.parse_eq_ok_iff, hpieces]
  unfold operandNames operand?
  cases w.drives .ldT1 <;> cases w.drives .ldT2 <;>
    simp [hnop, ht1, ht2, w.sourceName_spec.2, eq_comm (a := o)]

/-- What is shown as the operation of an assignment. -/
def opName (w : MicroWord) : String :=
  ((AluOp.ofCode? (w.read .aluOp)).map (·.name)).getD (codeText (w.read .aluOp))

theorem opName_spec (w : MicroWord) :
    isToken w.opName = true ∧ AluOp.ofName? (lowered w.opName) = AluOp.ofCode? (w.read .aluOp) := by
  unfold opName
  cases AluOp.ofCode? (w.read .aluOp) with
  | some op => exact op.name_spec
  | none =>
      obtain ⟨htoken, hhead⟩ := codeText_spec (w.read_lt .aluOp)
      exact ⟨htoken, (ofName?_of_head?_eq_zero hhead).1⟩

/-- What is shown of an ALU stage without a destination. -/
def carryName (w : MicroWord) : String :=
  if w.read .aluOp == 0 then "NOP"
  else ((CarryOp.ofCode? (w.read .aluOp)).map (·.name)).getD (codeText (w.read .aluOp))

theorem isToken_carryName (w : MicroWord) : isToken w.carryName = true := by
  unfold carryName
  split
  · decide
  · cases CarryOp.ofCode? (w.read .aluOp) with
    | some op => exact op.name_spec.1
    | none => exact (codeText_spec (w.read_lt .aluOp)).1

/-- An ALU stage without a destination is read as nothing, or as a carry operation. -/
theorem carryName_spec (w : MicroWord) :
    if w.read .aluOp = 0 then lowered w.carryName = "nop"
    else lowered w.carryName ≠ "" ∧ lowered w.carryName ≠ "nop" ∧
      CarryOp.ofName? (lowered w.carryName) = CarryOp.ofCode? (w.read .aluOp) := by
  unfold carryName
  simp only [beq_iff_eq]
  split
  · decide
  · cases CarryOp.ofCode? (w.read .aluOp) with
    | some op =>
        obtain ⟨-, hname, hempty, hnop⟩ := op.name_spec
        exact ⟨hempty, hnop, hname⟩
    | none =>
        obtain ⟨-, hhead⟩ := codeText_spec (w.read_lt .aluOp)
        refine ⟨fun h => ?_, fun h => ?_, (ofName?_of_head?_eq_zero hhead).2⟩
        · exact absurd (h ▸ hhead) (by decide)
        · exact absurd (h ▸ hhead) (by decide)

/-- The tokens of the ALU stage. -/
def aluNames (w : MicroWord) : List String :=
  if w.drives .rbWe then [w.bankName, w.opName]
  else if w.drives .doWe then ["DO", w.opName]
  else [w.carryName]

theorem aluNames_tokens (w : MicroWord) :
    w.aluNames ≠ [] ∧ ∀ name ∈ w.aluNames, isToken name = true := by
  have hdo : isToken "DO" = true := by decide
  unfold aluNames
  cases w.drives .rbWe <;> cases w.drives .doWe <;>
    simp [hdo, w.bankName_spec.1, w.opName_spec.1, w.isToken_carryName]

theorem toList_aluText (w : MicroWord) :
    w.aluText.toList = [' ', '=', ' '].intercalate (w.aluNames.map String.toList) := by
  have htext : w.aluText =
      if w.drives .rbWe then w.bankName ++ " = " ++ w.opName
      else if w.drives .doWe then "DO = " ++ w.opName
      else w.carryName := rfl
  rw [htext, aluNames]
  cases w.drives .rbWe <;> cases w.drives .doWe <;> simp [List.intercalate_cons_cons]

/-- The text of the ALU stage is read as the ALU stage. -/
theorem parse_aluText_iff (w : MicroWord) {a : Alu} :
    Alu.parse w.aluText.toList = .ok a ↔ w.alu? = some a := by
  obtain ⟨hne, htokens⟩ := w.aluNames_tokens
  have hpieces : pieces '=' w.aluText.toList = w.aluNames.map lowered := by
    rw [toList_aluText]
    exact pieces_intercalate (.inl rfl) [' '] [' '] isBlank_of_mem_space isBlank_of_mem_space hne
      htokens
  have hdo : AluDest.ofName? (lowered "DO") = some .dataOut := by decide
  have hbank : AluDest.ofName? (lowered w.bankName) = w.bankRef?.map .bank := by
    obtain ⟨-, hname, -, hne⟩ := w.bankName_spec
    simp only [AluDest.ofName?, hname, beq_iff_eq, hne, if_false]
    cases w.bankRef? <;> rfl
  have hcarry := w.carryName_spec
  rw [Alu.parse_eq_ok_iff, hpieces]
  unfold aluNames alu?
  cases w.drives .rbWe with
  | true => simp [hbank, w.opName_spec.2, Option.bind_eq_some_iff, eq_comm (a := a)]
  | false =>
      cases w.drives .doWe with
      | true => simp [hdo, w.opName_spec.2, eq_comm (a := a)]
      | false =>
          by_cases hzero : w.read .aluOp = 0
          · rw [if_pos hzero] at hcarry
            simp [hcarry, hzero, eq_comm (a := a)]
          · rw [if_neg hzero] at hcarry
            simp [hcarry, hzero, eq_comm (a := a)]

/-! ## flags -/

/-- Two flags that a word shows write different fields. -/
theorem pairwise_flags (w : MicroWord) : w.flags.Pairwise fun a b => a.field ≠ b.field := by
  have hall : Flag.all.Pairwise fun a b => a.field = b.field → a.value ≠ b.value := by decide
  refine (hall.filter _).imp_of_mem fun {a b} ha hb hne hfield => hne hfield ?_
  have hvalue := beq_iff_eq.mp (List.mem_filter.mp ha).2
  have hvalue' := beq_iff_eq.mp (List.mem_filter.mp hb).2
  rw [← hvalue, ← hvalue', hfield]

/-- The tokens of the flags are read as the flags. -/
theorem parseList_flags {w : MicroWord} (h : w.flags ≠ []) :
    Flag.parseList ([',', ' '].intercalate ((w.flags.map (·.token)).map String.toList)) =
      .ok w.flags := by
  have htokens : ∀ token ∈ w.flags.map (·.token), isToken token = true := by
    intro token htoken
    obtain ⟨flag, -, rfl⟩ := List.mem_map.mp htoken
    exact flag.token_spec.1
  have hpieces : pieces ',' ([',', ' '].intercalate ((w.flags.map (·.token)).map String.toList)) =
      w.flags.map (·.token) := by
    have hcut := pieces_intercalate (.inr rfl) [] [' '] (List.forall_mem_nil _)
      isBlank_of_mem_space (by simpa using h) htokens
    refine hcut.trans ?_
    rw [List.map_map]
    exact List.map_congr_left fun flag _ => flag.token_spec.2
  exact Flag.parseList_eq_ok_iff_spelled.mpr (.list hpieces w.pairwise_flags)

/-! ## lines -/

/-- The fields after the operand stage. -/
def furtherFields (w : MicroWord) : List (List Char) :=
  w.aluText.toList ::
    if w.flags.isEmpty then []
    else [[',', ' '].intercalate ((w.flags.map (·.token)).map String.toList)]

/-- The text of a plain word is joined from its fields. -/
theorem toList_plainText (w : MicroWord) :
    w.plainText = String.ofList
      ([' ', ';', ' '].intercalate (w.operandText.toList :: w.furtherFields)) := by
  rw [← String.toList_inj, String.toList_ofList, plainText, furtherFields]
  cases w.flags.isEmpty <;> simp [List.intercalate_cons_cons, String.toList_intercalate]

/-- The fields of a plain word may stand in a line. -/
theorem isField_of_mem_fields (w : MicroWord) :
    ∀ field ∈ w.operandText.toList :: w.furtherFields, Line.IsField field := by
  have hoperand : Line.IsField w.operandText.toList := by
    rw [toList_operandText]
    exact Line.isField_intercalate (by decide) (by decide) w.operandNames_tokens.1
      w.operandNames_tokens.2
  have halu : Line.IsField w.aluText.toList := by
    rw [toList_aluText]
    exact Line.isField_intercalate (by decide) (by decide) w.aluNames_tokens.1
      w.aluNames_tokens.2
  have hflags : w.flags.isEmpty = false → Line.IsField
      ([',', ' '].intercalate ((w.flags.map (·.token)).map String.toList)) := by
    intro hne
    refine Line.isField_intercalate (by decide) (by decide) ?_ fun token htoken => ?_
    · simpa using hne
    · obtain ⟨flag, -, rfl⟩ := List.mem_map.mp htoken
      exact flag.token_spec.1
  intro field hmem
  unfold furtherFields at hmem
  cases hempty : w.flags.isEmpty with
  | true =>
      simp only [hempty, if_true, List.mem_cons, List.not_mem_nil, or_false] at hmem
      rcases hmem with rfl | rfl
      · exact hoperand
      · exact halu
  | false =>
      simp only [hempty, Bool.false_eq_true, if_false, List.mem_cons, List.not_mem_nil, or_false]
        at hmem
      rcases hmem with rfl | rfl | rfl
      · exact hoperand
      · exact halu
      · exact hflags hempty

/-- The text of a word that is no jump has the fields of the word. -/
theorem fields_disassemble {w : MicroWord} (h : w.jumpKind? = none) :
    Line.fields w.disassemble = w.operandText.toList :: w.furtherFields := by
  have hplain : w.disassemble = w.plainText := by simp [disassemble, h]
  rw [hplain, toList_plainText,
    Line.fields_intercalate (List.cons_ne_nil _ _) w.isField_of_mem_fields]

/-- The text of a plain word begins like a regular instruction. -/
theorem ofFields_operandText (w : MicroWord) (rest : List (List Char)) :
    Line.ofFields w.operandText.toList rest =
      (Instruction.build w.operandText.toList rest).map .word := by
  rw [toList_operandText, operandNames]
  cases w.drives .ldT1 <;> cases w.drives .ldT2 <;> rfl

/-- Reading the fields of a plain word gives the instruction that they say. -/
theorem parse_fields_iff (w : MicroWord) {i : Instruction} :
    Instruction.parse w.operandText.toList w.furtherFields = .ok i ↔ w.instruction? = some i := by
  have hflags : w.furtherFields[1]?.elim (.ok []) Flag.parseList = .ok w.flags := by
    unfold furtherFields
    cases hflags : w.flags with
    | nil => rfl
    | cons flag rest =>
        have hparse := w.parseList_flags (by rw [hflags]; exact List.cons_ne_nil _ _)
        rw [hflags] at hparse
        exact hparse
  have halu : w.furtherFields[0]?.elim (.ok .nop) Alu.parse = Alu.parse w.aluText.toList := rfl
  rw [Instruction.parse_eq_ok_iff, hflags, halu, parse_operandText_iff, parse_aluText_iff]
  unfold instruction?
  simp only [Option.bind_eq_bind, Option.bind_eq_some_iff, Option.pure_def, Option.some.injEq,
    Except.ok.injEq]
  constructor
  · rintro ⟨hoperand, halu, hflags⟩
    exact ⟨_, hoperand, _, halu, by rw [hflags]⟩
  · rintro ⟨o, hoperand, a, halu, rfl⟩
    exact ⟨hoperand, halu, rfl⟩

/-- Reading the text of a plain word gives the word of the instruction that it says. -/
theorem parse_plainText_iff (w : MicroWord) {u : MicroWord} :
    Line.parse w.plainText = .ok (some (.word u)) ↔
      ∃ i, w.instruction? = some i ∧ i.image = u := by
  have hlen : (w.operandText.toList :: w.furtherFields).length ≤ Line.maxFields := by
    unfold furtherFields
    cases w.flags.isEmpty <;> simp [Line.maxFields]
  rw [toList_plainText, Line.parse_intercalate (List.cons_ne_nil _ _) hlen w.isField_of_mem_fields,
    List.headD_cons, List.tail_cons, ofFields_operandText, Instruction.build_eq]
  simp only [← parse_fields_iff, map_eq_ok_iff]
  constructor
  · rintro ⟨line, ⟨w', ⟨i, hi, rfl⟩, rfl⟩, hword⟩
    exact ⟨i, hi, Line.word.inj (Option.some.inj hword)⟩
  · rintro ⟨i, hi, rfl⟩
    exact ⟨_, ⟨_, ⟨i, hi, rfl⟩, rfl⟩, rfl⟩

end MicroWord

end Microcode
