import Microcode.Line.Parser
import Microcode.Proofs.Instruction.Build

/-!
# Microcode.Proofs.Line.Parser

What reading a line can give.

A line that gives a word without a pending jump is the image of a regular instruction
(`Line.exists_image_of_parse`), so its word is no jump.  A line that is refused is unreadable by
itself (`Line.unreadable_of_parse_eq_error`), since every value that an instruction writes fits.

Each kind of line has its own fields (`Line.readFrom_of_ofFields`), and only an instruction has more
than one.  The parameters of a pragma are characters of its line (`Line.params_subset_of_parse`).

A line that is joined from fields without blanks around them has these fields, and is read from them
(`Line.fields_intercalate`, `Line.parse_intercalate`).
-/

namespace Microcode

open Result

/-- A pragma has its keyword, up to case. -/
theorem Pragma.ofKeyword?_eq_some_iff {keyword : List Char} {p : Pragma} :
    ofKeyword? keyword = some p ↔ Text.lower keyword = p.keyword.toList := by
  rw [← String.toList_ofList (l := Text.lower keyword), String.toList_inj]
  exact find?_code_eq_some_iff fun p => by cases p <;> rfl

theorem JumpKind.ofMnemonic?_eq_some_iff {s : String} {kind : JumpKind} :
    ofMnemonic? s = some kind ↔ s = kind.mnemonic :=
  find?_code_eq_some_iff fun kind => by cases kind <;> rfl

namespace Line

/-! ## the kinds of line -/

/-- The outcomes of reading a line: a word is the image of an instruction, and an error is about
the line alone. -/
inductive Regular : Except LineError Line → Prop
  | label (name : String) : Regular (.ok (.label name))
  | pragma (p : Pragma) (params : String) : Regular (.ok (.pragma p params))
  | jump (kind : JumpKind) (label : String) : Regular (.ok (.jump kind label))
  | word (i : Instruction) : Regular (.ok (.word i.image))
  | error {e : LineError} (h : e.unreadable = true) : Regular (.error e)

/-- Refusing further fields keeps an outcome regular. -/
theorem regular_alone (form : LineForm) (rest : List (List Char)) {x : Except LineError Line}
    (h : Regular x) : Regular (alone form rest x) := by
  unfold alone
  split
  · exact h
  · exact .error rfl

theorem regular_parseLabel (name : List Char) : Regular (parseLabel name) := by
  unfold parseLabel
  split
  · exact .label _
  · exact .error rfl

theorem regular_parsePragma (field : List Char) : Regular (parsePragma field) := by
  unfold parsePragma
  simp only
  split
  · exact .pragma _ _
  · exact .error rfl

theorem regular_parseJump (field : List Char) : Regular (parseJump field) := by
  unfold parseJump
  split
  · exact .error rfl
  · simp only
    split
    · split
      · exact .error rfl
      · split
        · exact .jump _ _
        · exact .error rfl
      · exact .error rfl
    · exact .error rfl

/-- A regular instruction is read as its image. -/
theorem regular_instruction (head : List Char) (rest : List (List Char)) :
    Regular ((Instruction.build head rest).map .word) := by
  rw [Instruction.build_eq]
  cases h : Instruction.parse head rest with
  | error e => exact .error (Instruction.unreadable_of_parse_eq_error h)
  | ok i => exact .word i

theorem regular_ofFields (head : List Char) (rest : List (List Char)) :
    Regular (ofFields head rest) := by
  unfold ofFields
  split
  · exact regular_alone _ _ (regular_parseLabel _)
  · exact regular_alone _ _ (regular_parsePragma _)
  · exact regular_alone _ _ (regular_parseJump _)
  · exact regular_alone _ _ (regular_parseJump _)
  · exact regular_instruction head rest

/-! ## lines -/

/-- The trimmed fields of a line. -/
def fields (raw : String) : List (List Char) := ((strip raw.toList).splitOn ';').map Text.trim

/-- A line has a first field. -/
theorem exists_fields_eq_cons (raw : String) : ∃ head rest, fields raw = head :: rest :=
  List.exists_cons_of_ne_nil (by simp [fields, List.splitOn_ne_nil])

/-- A line that is not blank is read from its fields. -/
theorem parse_eq (raw : String) :
    parse raw =
      if (strip raw.toList).isEmpty then .ok none
      else if maxFields < (fields raw).length then .error .tooManyFields
      else (ofFields ((fields raw).headD []) (fields raw).tail).map some := rfl

/-- A line has content exactly when it is not blank, has few enough fields, and these are read. -/
theorem parse_eq_some_iff {raw : String} {line : Line} :
    parse raw = .ok (some line) ↔
      strip raw.toList ≠ [] ∧ (fields raw).length ≤ maxFields ∧
        ofFields ((fields raw).headD []) (fields raw).tail = .ok line := by
  rw [parse_eq]
  split
  · next hblank => simp [List.isEmpty_iff.mp hblank]
  · next hblank =>
      rw [List.isEmpty_iff] at hblank
      split
      · next hmany => simp [Nat.not_le.mpr hmany]
      · next hfew => simp [hblank, Nat.not_lt.mp hfew, map_eq_ok_iff]

/-- The word of a line without a pending jump is the image of an instruction. -/
theorem exists_image_of_parse {raw : String} {w : MicroWord}
    (h : parse raw = .ok (some (.word w))) : ∃ i : Instruction, w = i.image := by
  obtain ⟨-, -, hread⟩ := parse_eq_some_iff.mp h
  have hreg := regular_ofFields ((fields raw).headD []) (fields raw).tail
  rw [hread] at hreg
  cases hreg with
  | word i => exact ⟨i, rfl⟩

/-- A line is refused for what stands on it. -/
theorem unreadable_of_parse_eq_error {raw : String} {e : LineError} (h : parse raw = .error e) :
    e.unreadable = true := by
  have hreg := regular_ofFields ((fields raw).headD []) (fields raw).tail
  rw [parse_eq] at h
  split at h
  · exact nomatch h
  · split at h
    · rw [← Except.error.inj h]; rfl
    · rw [map_eq_error_iff.mp h] at hreg
      cases hreg with
      | error hunreadable => exact hunreadable

/-- The word of a line without a pending jump is no jump. -/
theorem jumpKind?_of_parse {raw : String} {w : MicroWord}
    (h : parse raw = .ok (some (.word w))) : w.jumpKind? = none := by
  obtain ⟨i, rfl⟩ := exists_image_of_parse h
  exact i.jumpKind?_image

/-! ## what fields are read as -/

theorem alone_eq_ok_iff {form : LineForm} {rest : List (List Char)} {x : Except LineError Line}
    {line : Line} : alone form rest x = .ok line ↔ rest = [] ∧ x = .ok line := by
  unfold alone
  split <;> simp_all

theorem parseLabel_eq_ok_iff {name : List Char} {line : Line} :
    parseLabel name = .ok line ↔ isIdentifier name = true ∧ line = .label (String.ofList name) := by
  unfold parseLabel
  split
  · next hname => simp [hname, eq_comm]
  · next hname => simp [hname]

/-- The keyword of a pragma line ends at the first blank, and its parameters are what follows. -/
theorem parsePragma_eq_ok_iff {field : List Char} {line : Line} :
    parsePragma field = .ok line ↔
      ∃ p : Pragma, Text.lower (field.takeWhile (!Text.isBlank ·)) = p.keyword.toList ∧
        line = .pragma p (String.ofList (Text.trim (field.dropWhile (!Text.isBlank ·)))) := by
  simp only [parsePragma, ← Pragma.ofKeyword?_eq_some_iff]
  split
  · next p hp => simp [hp, eq_comm]
  · next hp => simp [hp]

/-- A jump line has two tokens: a mnemonic and an identifier. -/
theorem parseJump_eq_ok_iff {field : List Char} {line : Line} :
    parseJump field = .ok line ↔
      ∃ (kind : JumpKind) (label : List Char), Text.tokens field = [kind.mnemonic.toList, label] ∧
        isIdentifier label = true ∧ line = .jump kind (String.ofList label) := by
  constructor
  · intro h
    unfold parseJump at h
    split at h
    · exact nomatch h
    · next mnemonic targets htokens =>
        simp only at h
        split at h
        · next kind hkind =>
            rw [JumpKind.ofMnemonic?_eq_some_iff] at hkind
            split at h
            · exact nomatch h
            · next label =>
                split at h
                · next hlabel =>
                    refine ⟨kind, label, ?_, hlabel, (Except.ok.inj h).symm⟩
                    rw [htokens, ← hkind, String.toList_ofList]
                · exact nomatch h
            · exact nomatch h
        · exact nomatch h
  · rintro ⟨kind, label, htokens, hlabel, rfl⟩
    have hkind := JumpKind.ofMnemonic?_eq_some_iff.mpr (rfl : kind.mnemonic = kind.mnemonic)
    simp only [parseJump, htokens, String.ofList_toList, hkind, if_pos hlabel]
    rfl

/-- What the fields of a line are for each kind of line. -/
def ReadFrom (head : List Char) (rest : List (List Char)) : Line → Prop
  | .label name => rest = [] ∧ head = ':' :: name.toList ∧ isIdentifier name.toList = true
  | .pragma p params =>
      rest = [] ∧ Text.lower (head.takeWhile (!Text.isBlank ·)) = p.keyword.toList ∧
        params.toList = Text.trim (head.dropWhile (!Text.isBlank ·))
  | .jump kind target =>
      rest = [] ∧ Text.tokens head = [kind.mnemonic.toList, target.toList] ∧
        isIdentifier target.toList = true
  | .word w => ∃ i, Instruction.parse head rest = .ok i ∧ w = i.image

theorem readFrom_of_parseJump {head : List Char} {line : Line} (h : parseJump head = .ok line) :
    line.ReadFrom head [] := by
  obtain ⟨kind, label, htokens, hlabel, rfl⟩ := parseJump_eq_ok_iff.mp h
  rw [ReadFrom, String.toList_ofList]
  exact ⟨rfl, htokens, hlabel⟩

/-- A line is read from fields of its kind. -/
theorem readFrom_of_ofFields {head : List Char} {rest : List (List Char)} {line : Line}
    (h : ofFields head rest = .ok line) : line.ReadFrom head rest := by
  unfold ofFields at h
  split at h
  · obtain ⟨rfl, hlabel⟩ := alone_eq_ok_iff.mp h
    obtain ⟨hname, rfl⟩ := parseLabel_eq_ok_iff.mp hlabel
    rw [ReadFrom, String.toList_ofList]
    exact ⟨rfl, rfl, hname⟩
  · obtain ⟨rfl, hpragma⟩ := alone_eq_ok_iff.mp h
    obtain ⟨p, hkeyword, rfl⟩ := parsePragma_eq_ok_iff.mp hpragma
    exact ⟨rfl, hkeyword, String.toList_ofList⟩
  · obtain ⟨rfl, hjump⟩ := alone_eq_ok_iff.mp h
    exact readFrom_of_parseJump hjump
  · obtain ⟨rfl, hjump⟩ := alone_eq_ok_iff.mp h
    exact readFrom_of_parseJump hjump
  · rw [Instruction.build_eq] at h
    obtain ⟨w, hw, rfl⟩ := map_eq_ok_iff.mp h
    obtain ⟨i, hi, rfl⟩ := map_eq_ok_iff.mp hw
    exact ⟨i, hi, rfl⟩

/-- The parameters of a pragma are taken from its line. -/
theorem params_subset_of_parse {raw : String} {p : Pragma} {params : String}
    (h : parse raw = .ok (some (.pragma p params))) : params.toList ⊆ raw.toList := by
  have hhead : (fields raw).headD [] ⊆ raw.toList := by
    obtain ⟨first, others, hpieces⟩ :=
      List.exists_cons_of_ne_nil (List.splitOn_ne_nil ';' (strip raw.toList))
    have hfirst : first ⊆ strip raw.toList := fun c hc =>
      (Text.mem_of_mem_splitOn (by rw [hpieces]; exact List.mem_cons_self) hc).1
    have hstrip : strip raw.toList ⊆ raw.toList :=
      List.Subset.trans (Text.trimEnd_subset _)
        (List.Subset.trans (Text.before_subset _ _) (Text.trim_subset _))
    rw [fields, hpieces]
    exact List.Subset.trans (Text.trim_subset first) (List.Subset.trans hfirst hstrip)
  obtain ⟨-, -, hread⟩ := parse_eq_some_iff.mp h
  obtain ⟨-, -, hparams⟩ := readFrom_of_ofFields hread
  rw [hparams]
  exact List.Subset.trans (Text.trim_subset _)
    (List.Subset.trans (List.dropWhile_suffix _).subset hhead)

/-! ## lines joined from fields -/

/-- A text that may stand between the semicolons of a line, without blanks around it. -/
structure IsField (s : List Char) : Prop where
  ne_nil : s ≠ []
  trimmed : Text.Trimmed s
  no_semicolon : ';' ∉ s
  no_slash : '/' ∉ s

/-- A text joined from tokens is a field. -/
theorem isField_intercalate {glue : List Char} (hsemicolon : ';' ∉ glue) (hslash : '/' ∉ glue)
    {names : List String} (hne : names ≠ []) (h : ∀ name ∈ names, Text.isToken name = true) :
    IsField (glue.intercalate (names.map String.toList)) := by
  have htoken : ∀ l ∈ names.map String.toList, l ≠ [] ∧ Text.Trimmed l := by
    intro l hl
    obtain ⟨name, hname, rfl⟩ := List.mem_map.mp hl
    exact ⟨(Text.isToken_iff.mp (h name hname)).1, Text.trimmed_of_isToken (h name hname)⟩
  have hchars : ∀ c ∈ glue.intercalate (names.map String.toList), c ≠ ';' ∧ c ≠ '/' := by
    apply Text.forall_mem_intercalate
    · exact fun c hc => ⟨fun heq => hsemicolon (heq ▸ hc), fun heq => hslash (heq ▸ hc)⟩
    · intro l hl c hc
      obtain ⟨name, hname, rfl⟩ := List.mem_map.mp hl
      obtain ⟨-, hsemi, -, -, hsl⟩ := (Text.isToken_iff.mp (h name hname)).2 c hc
      exact ⟨hsemi, hsl⟩
  obtain ⟨hnil, htrimmed⟩ := Text.trimmed_intercalate (by simpa using hne) htoken
  exact ⟨hnil, htrimmed, fun hmem => (hchars _ hmem).1 rfl, fun hmem => (hchars _ hmem).2 rfl⟩

/-- A line joined from fields is not blank, and has no blanks around it. -/
theorem trimmed_fields {ls : List (List Char)} (hne : ls ≠ []) (h : ∀ field ∈ ls, IsField field) :
    [' ', ';', ' '].intercalate ls ≠ [] ∧ Text.Trimmed ([' ', ';', ' '].intercalate ls) :=
  Text.trimmed_intercalate hne fun field hfield =>
    ⟨(h field hfield).ne_nil, (h field hfield).trimmed⟩

/-- A line joined from fields has nothing to strip. -/
theorem strip_intercalate {ls : List (List Char)} (hne : ls ≠ [])
    (h : ∀ field ∈ ls, IsField field) :
    strip ([' ', ';', ' '].intercalate ls) = [' ', ';', ' '].intercalate ls := by
  obtain ⟨-, htrimmed⟩ := trimmed_fields hne h
  have hslash : '/' ∉ [' ', ';', ' '].intercalate ls := fun hmem =>
    Text.forall_mem_intercalate (P := (· ≠ '/')) (by simp)
      (fun field hfield c hc => fun heq => (h field hfield).no_slash (heq ▸ hc)) _ hmem rfl
  rw [strip, Text.trim_eq_self htrimmed, Text.before_of_notMem hslash,
    Text.trimEnd_eq_self htrimmed.2]

/-- A line joined from fields has these fields. -/
theorem fields_intercalate {ls : List (List Char)} (hne : ls ≠ [])
    (h : ∀ field ∈ ls, IsField field) :
    fields (String.ofList ([' ', ';', ' '].intercalate ls)) = ls := by
  have hcut := Text.map_trim_splitOn_intercalate (show Text.isBlank ';' = false by decide)
    Text.isBlank_of_mem_space Text.isBlank_of_mem_space hne
    fun field hfield => (h field hfield).no_semicolon
  have htrim : ls.map Text.trim = ls.map id :=
    List.map_congr_left fun field hfield => Text.trim_eq_self (h field hfield).trimmed
  rw [fields, String.toList_ofList, strip_intercalate hne h]
  exact hcut.trans (htrim.trans (List.map_id ls))

/-- A line joined from fields is read from these fields. -/
theorem parse_intercalate {ls : List (List Char)} (hne : ls ≠ []) (hlen : ls.length ≤ maxFields)
    (h : ∀ field ∈ ls, IsField field) :
    parse (String.ofList ([' ', ';', ' '].intercalate ls)) =
      (ofFields (ls.headD []) ls.tail).map some := by
  obtain ⟨hnil, -⟩ := trimmed_fields hne h
  rw [parse_eq, fields_intercalate hne h, String.toList_ofList, strip_intercalate hne h,
    if_neg (by simpa using hnil), if_neg (Nat.not_lt.mpr hlen)]

end Line

end Microcode
