import Microcode.Proofs.Line.Parser
import Microcode.Proofs.Line.Strip

/-!
# Microcode.Proofs.Line.Forms

Which lines are labels, pragmas and jumps, and the plainest text of each.

The first characters of a line settle its kind before the rest is looked at, so a keyword or a mnemonic
has to be the first thing on its line: `Line.parse_eq_ok_iff` takes the fields out of the question,
since only an instruction has more than one, and one lemma for each kind says which lines are left
(`parse_eq_label_iff`, `parse_eq_jump_iff`, `parse_eq_pragma_iff`).  The plainest text of such a line
(`Line.text?`) is read as the same line again, whatever the line looked like.
-/

namespace Microcode

open Text Result

/-! ## identifiers and keywords -/

/-- Nothing but an underscore is an underscore in lower case. -/
theorem Text.eq_of_toLower_eq {c : Char} (h : c.toLower = '_') : c = '_' := by
  unfold Char.toLower at h
  split at h
  · next hupper =>
      have hval : (c.val + ('a'.val - 'A'.val)).toNat = 95 := congrArg Char.toNat h
      simp [UInt32.le_iff_toNat_le] at hupper hval
      omega
  · exact h

/-- Letters, digits and underscores are no blanks, and separate nothing. -/
theorem Text.isBlank_of_isAlphanum {c : Char} (h : (c.isAlphanum || c == '_') = true) :
    isBlank c = false ∧ c ≠ ';' ∧ c ≠ '/' := by
  rw [Bool.or_eq_true, beq_iff_eq] at h
  rcases h with h | rfl
  · have hranges : (decide ('A'.val ≤ c.val ∧ c.val ≤ 'Z'.val) ||
        (decide ('a'.val ≤ c.val) && decide (c.val ≤ 'z'.val)) ||
        (decide ('0'.val ≤ c.val) && decide (c.val ≤ '9'.val))) = true := h
    have hrange : (65 ≤ c.toNat ∧ c.toNat ≤ 90 ∨ 97 ≤ c.toNat ∧ c.toNat ≤ 122) ∨
        48 ≤ c.toNat ∧ c.toNat ≤ 57 := by
      simpa [UInt32.le_iff_toNat_le] using hranges
    refine ⟨?_, ?_, ?_⟩
    · simp [isBlank]
      omega
    · rintro rfl
      revert hrange
      decide
    · rintro rfl
      revert hrange
      decide
  · decide

/-- An identifier is a word, and has no semicolon and no slash in it. -/
theorem isWord_of_isIdentifier {name : List Char} (h : isIdentifier name = true) :
    IsWord name ∧ ';' ∉ name ∧ '/' ∉ name := by
  have hchars : name ≠ [] ∧ ∀ c ∈ name, (c.isAlphanum || c == '_') = true := by
    cases name with
    | nil => exact nomatch h
    | cons c rest =>
        rw [isIdentifier, Bool.and_eq_true, List.all_eq_true] at h
        refine ⟨List.cons_ne_nil c rest, List.forall_mem_cons.mpr ⟨?_, h.2⟩⟩
        rw [Char.isAlphanum, Bool.or_assoc, Bool.or_comm c.isDigit, ← Bool.or_assoc, h.1]
        rfl
  refine ⟨⟨hchars.1, fun c hc => (isBlank_of_isAlphanum (hchars.2 c hc)).1⟩, ?_, ?_⟩
  · exact fun hmem => (isBlank_of_isAlphanum (hchars.2 _ hmem)).2.1 rfl
  · exact fun hmem => (isBlank_of_isAlphanum (hchars.2 _ hmem)).2.2 rfl

theorem Pragma.isIdentifier_keyword (p : Pragma) : isIdentifier p.keyword.toList = true := by
  cases p <;> rfl

theorem Pragma.lower_keyword (p : Pragma) : lower p.keyword.toList = p.keyword.toList := by
  cases p <;> rfl

/-- A pragma is written with two underscores first, in any case. -/
theorem Pragma.exists_cons_of_lower {keyword : List Char} {p : Pragma}
    (h : lower keyword = p.keyword.toList) : ∃ rest, keyword = '_' :: '_' :: rest := by
  obtain ⟨tail, htail⟩ : ∃ tail, p.keyword.toList = '_' :: '_' :: tail := by
    cases p <;> exact ⟨_, rfl⟩
  rw [htail, lower, List.map_eq_cons_iff] at h
  obtain ⟨c, more, rfl, hc, hmore⟩ := h
  obtain ⟨c', rest, rfl, hc', -⟩ := List.map_eq_cons_iff.mp hmore
  rw [eq_of_toLower_eq hc, eq_of_toLower_eq hc']
  exact ⟨rest, rfl⟩

theorem JumpKind.isIdentifier_mnemonic (kind : JumpKind) :
    isIdentifier kind.mnemonic.toList = true := by
  cases kind <;> rfl

namespace Line

/-! ## lines with one field -/

/-- A line without a semicolon has one field. -/
theorem fields_of_notMem {raw : String} (h : ';' ∉ strip raw.toList) :
    fields raw = [strip raw.toList] := by
  rw [fields, List.splitOn_eq_singleton h, List.map_singleton, trim_eq_self (trimmed_strip _)]

/-- A line with a semicolon has more than one field. -/
theorem notMem_of_fields {raw : String} {head : List Char} (h : fields raw = [head]) :
    ';' ∉ strip raw.toList := by
  intro hmem
  obtain ⟨s, t, hst⟩ := List.append_of_mem hmem
  have hlength := congrArg List.length h
  have hs := List.length_pos_iff.mpr (List.splitOn_ne_nil ';' s)
  have ht := List.length_pos_iff.mpr (List.splitOn_ne_nil ';' t)
  simp [fields, hst, List.splitOn_append_cons_self] at hlength
  omega

/-- Only an instruction has more than one field. -/
theorem ReadFrom.eq_nil {head : List Char} {rest : List (List Char)} {line : Line}
    (h : line.ReadFrom head rest) (hline : ∀ w, line ≠ .word w) : rest = [] := by
  cases line with
  | label => exact h.1
  | pragma => exact h.1
  | jump => exact h.1
  | word w => exact absurd rfl (hline w)

/-- A line that is no instruction has one field, and is read from all that is left of it. -/
theorem parse_eq_ok_iff {raw : String} {line : Line} (hline : ∀ w, line ≠ .word w) :
    parse raw = .ok (some line) ↔
      strip raw.toList ≠ [] ∧ ';' ∉ strip raw.toList ∧ ofFields (strip raw.toList) [] = .ok line := by
  rw [parse_eq_some_iff]
  constructor
  · rintro ⟨hne, -, hread⟩
    obtain ⟨head, rest, hfields⟩ := exists_fields_eq_cons raw
    rw [hfields, List.headD_cons, List.tail_cons] at hread
    obtain rfl : rest = [] := (readFrom_of_ofFields hread).eq_nil hline
    have hsemicolon := notMem_of_fields hfields
    rw [fields_of_notMem hsemicolon] at hfields
    obtain rfl := List.singleton_inj.mp hfields
    exact ⟨hne, hsemicolon, hread⟩
  · rintro ⟨hne, hsemicolon, hread⟩
    rw [fields_of_notMem hsemicolon]
    exact ⟨hne, Nat.le_add_left 1 2, hread⟩

/-! ## which lines are read as each kind -/

/-- A label line is a colon and the name. -/
theorem parse_eq_label_iff {raw name : String} :
    parse raw = .ok (some (.label name)) ↔
      strip raw.toList = ':' :: name.toList ∧ isIdentifier name.toList = true := by
  rw [parse_eq_ok_iff (by simp)]
  constructor
  · rintro ⟨-, -, hread⟩
    exact (readFrom_of_ofFields hread).2
  · rintro ⟨hstrip, hname⟩
    obtain ⟨-, hsemicolon, -⟩ := isWord_of_isIdentifier hname
    rw [hstrip]
    refine ⟨List.cons_ne_nil _ _, by simp [hsemicolon], ?_⟩
    exact parseLabel_eq_ok_iff.mpr ⟨hname, by rw [String.ofList_toList]⟩

/-- A jump line is a mnemonic and a label, with blanks between them. -/
theorem parse_eq_jump_iff {raw : String} {kind : JumpKind} {label : String} :
    parse raw = .ok (some (.jump kind label)) ↔
      ';' ∉ strip raw.toList ∧
        tokens (strip raw.toList) = [kind.mnemonic.toList, label.toList] ∧
          isIdentifier label.toList = true := by
  rw [parse_eq_ok_iff (by simp)]
  constructor
  · rintro ⟨-, hsemicolon, hread⟩
    exact ⟨hsemicolon, (readFrom_of_ofFields hread).2⟩
  · rintro ⟨hsemicolon, htokens, hlabel⟩
    have hjump : parseJump (strip raw.toList) = .ok (.jump kind label) :=
      parseJump_eq_ok_iff.mpr ⟨kind, label.toList, htokens, hlabel, by rw [String.ofList_toList]⟩
    -- the mnemonic is the first thing on the line, so the line is taken for a jump
    obtain ⟨rest, hstrip⟩ := exists_append_of_tokens (trimmed_strip raw.toList).1 htokens
    rw [hstrip] at hjump hsemicolon ⊢
    cases kind with
    | call => exact ⟨List.cons_ne_nil _ _, hsemicolon, hjump⟩
    | condCall => exact ⟨List.cons_ne_nil _ _, hsemicolon, hjump⟩

/-- A pragma line is a keyword in any case, ended by a blank or the end of the line, and the
parameters. -/
theorem parse_eq_pragma_iff {raw : String} {p : Pragma} {params : String} :
    parse raw = .ok (some (.pragma p params)) ↔
      ';' ∉ strip raw.toList ∧
        ∃ keyword rest, strip raw.toList = keyword ++ rest ∧ (∀ c ∈ keyword, isBlank c = false) ∧
          (∀ c ∈ rest.head?, isBlank c = true) ∧ lower keyword = p.keyword.toList ∧
            params.toList = trim rest := by
  rw [parse_eq_ok_iff (by simp)]
  constructor
  · rintro ⟨-, hsemicolon, hread⟩
    obtain ⟨-, hkeyword, hparams⟩ := readFrom_of_ofFields hread
    refine ⟨hsemicolon, _, _, List.takeWhile_append_dropWhile.symm, fun c hc => ?_,
      fun c hc => isBlank_of_head?_dropWhile hc, hkeyword, hparams⟩
    simpa using List.mem_takeWhile_imp hc
  · rintro ⟨hsemicolon, keyword, rest, hstrip, hkeyword, hrest, hlower, hparams⟩
    obtain ⟨htake, hdrop⟩ := span_blank hkeyword hrest
    rw [← hstrip] at htake hdrop
    have hpragma : parsePragma (strip raw.toList) = .ok (.pragma p params) := by
      refine parsePragma_eq_ok_iff.mpr ⟨p, by rw [htake, hlower], ?_⟩
      rw [hdrop, ← hparams, String.ofList_toList]
    -- the keyword begins with two underscores, so the line is taken for a pragma
    obtain ⟨more, rfl⟩ := Pragma.exists_cons_of_lower hlower
    rw [hstrip] at hpragma hsemicolon ⊢
    exact ⟨List.cons_ne_nil _ _, hsemicolon, hpragma⟩

/-! ## the plainest text -/

/-- A line that is no instruction, with nothing in it but what it is read for. -/
def text? : Line → Option String
  | .label name => some (":" ++ name)
  | .jump kind target => some (kind.mnemonic ++ " " ++ target)
  | .pragma p params => some (p.keyword ++ " " ++ params)
  | .word _ => none

/-- The text of a label line is read as the label. -/
theorem parse_labelText {name : String} (h : isIdentifier name.toList = true) :
    parse (":" ++ name) = .ok (some (.label name)) := by
  obtain ⟨hword, -, hslash⟩ := isWord_of_isIdentifier h
  have hcolon : IsWord (':' :: name.toList) :=
    ⟨List.cons_ne_nil _ _, List.forall_mem_cons.mpr ⟨by decide, hword.2⟩⟩
  refine parse_eq_label_iff.mpr ⟨?_, h⟩
  rw [String.toList_append]
  exact strip_eq_self hcolon.trimmed (not_infix_of_notMem (by simp [hslash]))

/-- The text of a jump line is read as the jump. -/
theorem parse_jumpText (kind : JumpKind) {label : String} (h : isIdentifier label.toList = true) :
    parse (kind.mnemonic ++ " " ++ label) = .ok (some (.jump kind label)) := by
  obtain ⟨hlabel, hlabelSemicolon, hlabelSlash⟩ := isWord_of_isIdentifier h
  obtain ⟨hkind, hsemicolon, hslash⟩ := isWord_of_isIdentifier kind.isIdentifier_mnemonic
  have htrimmed := hkind.trimmed.append hlabel.trimmed hkind.1 hlabel.1 [' ']
  rw [List.append_assoc, List.singleton_append] at htrimmed
  have htext : (kind.mnemonic ++ " " ++ label).toList =
      kind.mnemonic.toList ++ ' ' :: label.toList := by
    simp
  have hstrip := strip_eq_self htrimmed (not_infix_of_notMem (by simp [hslash, hlabelSlash]))
  rw [parse_eq_jump_iff, htext, hstrip, tokens_append_cons hkind rfl, tokens_of_isWord hlabel]
  exact ⟨by simp [hsemicolon, hlabelSemicolon], rfl, h⟩

/-- What is left of the text of a pragma line: a blank at its end is lost. -/
theorem strip_pragmaText (p : Pragma) {params : List Char} (htrimmed : Trimmed params)
    (hcomment : ¬['/', '/'] <:+: params) :
    strip (p.keyword.toList ++ ' ' :: params) =
      p.keyword.toList ++ if params = [] then [] else ' ' :: params := by
  obtain ⟨hword, -, hslash⟩ := isWord_of_isIdentifier p.isIdentifier_keyword
  split
  · next hnil =>
      rw [hnil, strip_append_blanks isBlank_of_mem_space, List.append_nil]
      exact strip_eq_self hword.trimmed (not_infix_of_notMem hslash)
  · next hne =>
      have hall := hword.trimmed.append htrimmed hword.1 hne [' ']
      rw [List.append_assoc, List.singleton_append] at hall
      refine strip_eq_self hall fun hmarker => hcomment ?_
      have hfront : '/' ∉ p.keyword.toList ++ [' '] := by simp [hslash]
      refine infix_of_infix_append hfront ?_
      rwa [List.append_assoc, List.singleton_append]

/-- The text of a pragma line is read as the pragma, if its parameters can be read at all. -/
theorem parse_pragmaText (p : Pragma) {params : String} (htrimmed : Trimmed params.toList)
    (hcomment : ¬['/', '/'] <:+: params.toList) (hsemicolon : ';' ∉ params.toList) :
    parse (p.keyword ++ " " ++ params) = .ok (some (.pragma p params)) := by
  obtain ⟨hword, hkeyword, -⟩ := isWord_of_isIdentifier p.isIdentifier_keyword
  have htext : (p.keyword ++ " " ++ params).toList = p.keyword.toList ++ ' ' :: params.toList := by
    simp
  rw [parse_eq_pragma_iff, htext, strip_pragmaText p htrimmed hcomment]
  refine ⟨?_, _, _, rfl, hword.2, ?_, p.lower_keyword, ?_⟩
  · split <;> simp [hkeyword, hsemicolon]
  · split <;> simp [isBlank]
  · split
    · next hnil => rw [hnil, trim_nil]
    · have hblank := trim_blanks_append isBlank_of_mem_space params.toList
      rw [trim_eq_self htrimmed] at hblank
      exact hblank.symm

/-- The plainest text of a line that was read is read as that line. -/
theorem parse_text? {raw text : String} {line : Line} (h : parse raw = .ok (some line))
    (htext : line.text? = some text) : parse text = .ok (some line) := by
  cases line with
  | label name =>
      obtain rfl := Option.some.inj htext
      exact parse_labelText (parse_eq_label_iff.mp h).2
  | jump kind label =>
      obtain rfl := Option.some.inj htext
      exact parse_jumpText kind (parse_eq_jump_iff.mp h).2.2
  | pragma p params =>
      obtain rfl := Option.some.inj htext
      obtain ⟨hsemicolon, keyword, rest, hstrip, -, -, -, hparams⟩ := parse_eq_pragma_iff.mp h
      -- the parameters are a part of what is left of the line
      have hpart : params.toList <:+: strip raw.toList := by
        rw [hparams, hstrip]
        exact (trim_isInfix rest).trans (List.suffix_append keyword rest).isInfix
      refine parse_pragmaText p ?_ ?_ fun hmem => hsemicolon (hpart.subset hmem)
      · rw [hparams]
        exact trimmed_trim rest
      · exact fun hcomment => not_infix_strip _ (hcomment.trans hpart)
  | word w => exact nomatch htext

/-- Labels, jumps and pragmas are read from exactly these lines, and from their plainest text. -/
theorem reads_forms_exactly (raw : String) :
    (∀ name, parse raw = .ok (some (.label name)) ↔
      strip raw.toList = ':' :: name.toList ∧ isIdentifier name.toList = true) ∧
    (∀ kind label, parse raw = .ok (some (.jump kind label)) ↔
      ';' ∉ strip raw.toList ∧
        tokens (strip raw.toList) = [kind.mnemonic.toList, label.toList] ∧
          isIdentifier label.toList = true) ∧
    (∀ p params, parse raw = .ok (some (.pragma p params)) ↔
      ';' ∉ strip raw.toList ∧
        ∃ keyword rest, strip raw.toList = keyword ++ rest ∧ (∀ c ∈ keyword, isBlank c = false) ∧
          (∀ c ∈ rest.head?, isBlank c = true) ∧ lower keyword = p.keyword.toList ∧
            params.toList = trim rest) ∧
    ∀ line text, parse raw = .ok (some line) → line.text? = some text →
      parse text = .ok (some line) :=
  ⟨fun _ => parse_eq_label_iff, fun _ _ => parse_eq_jump_iff, fun _ _ => parse_eq_pragma_iff,
    fun _ _ => parse_text?⟩

end Line

end Microcode
