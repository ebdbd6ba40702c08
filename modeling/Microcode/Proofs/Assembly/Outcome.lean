import Microcode.Proofs.Assembly.SecondPass

/-!
# Microcode.Proofs.Assembly.Outcome

What assembling a source comes to, said on its lines.

* `assemble_layout` — the control store of a source that assembles, word by word;
* `exists_assemble_iff` — which sources assemble, and which have too many words;
* `assemble_eq_encoding_iff` — which sources make the packer fail.

Each of them is put together from what the two passes do (`Draft.reads_of_ofLines`,
`Draft.exists_ofLines_iff`, and the lemmas on `Draft.Reads`).
-/

namespace Microcode

open Result Source

/-! ## the control store -/

namespace Program

/-- A filled list has the words it was given, and then the filler. -/
theorem getElem?_fill {n a : Nat} (h : a < n) (filler : MicroWord) (words : List MicroWord) :
    (fill n filler words)[a]? = some (words[a]?.getD filler) := by
  rw [fill, List.getElem?_take_of_lt h]
  by_cases hlt : a < words.length
  · rw [List.getElem?_append_left hlt, List.getElem?_eq_getElem hlt]
    rfl
  · have hge := Nat.le_of_not_lt hlt
    rw [List.getElem?_append_right hge, List.getElem?_replicate_of_lt (by omega),
      List.getElem?_eq_none hge]
    rfl

variable (code : List MicroWord) {decode : List MicroWord} (hdecode : decode.length = 256)

/-- The lower half holds the code, and padding after it. -/
theorem get?_ofParts_code {a : Nat} (h : a < 256) :
    (ofParts code decode hdecode).get? a = some (code[a]?.getD paddingWord) := by
  rw [get?, ofParts, List.getElem?_append_left (by rw [length_fill]; exact h), getElem?_fill h]

/-- The upper half holds the decode table. -/
theorem get?_ofParts_decode (v : Nat) :
    (ofParts code decode hdecode).get? (decodeBase + v) = decode[v]? := by
  have hlen : (fill 256 paddingWord code).length = decodeBase := length_fill _ _ _
  rw [get?, ofParts, List.getElem?_append_right (by omega), hlen, Nat.add_sub_cancel_left]

/-- There is a control store when the decode table can be encoded, and its words are the upper
half. -/
theorem ofTable_eq_ok_iff {t : DecodeTable} {p : Program} :
    ofTable code t = .ok p ↔
      ∃ (words : List MicroWord) (h : t.words = .ok words),
        p = .ofParts code words (DecodeTable.length_of_words h) := by
  unfold ofTable
  split
  · next words h =>
      rw [Except.ok.injEq, eq_comm]
      constructor
      · exact fun hp => ⟨words, h, hp⟩
      · rintro ⟨words', h', rfl⟩
        obtain rfl := Except.ok.inj (h'.symm.trans h)
        rfl
  · next e h => simp [h]

theorem ofTable_eq_error_iff {t : DecodeTable} {e : EncodingError} :
    ofTable code t = .error e ↔ t.words = .error e := by
  unfold ofTable
  split
  · next words h => simp [h]
  · next e' h => rw [h, Except.error.injEq, Except.error.injEq]

end Program

/-! ## the stages of the second pass -/

namespace Draft

variable {d : Draft} {config : Config} {lines : List String}

/-- The assembly that the second pass puts together. -/
def assembly (d : Draft) (decode : DecodeTable) (program : Program) : Assembly where
  program := program
  authored := d.slots.size
  labels := d.labels
  patterns := d.patterns
  decode := decode
  mnemonics := d.mnemonics
  trace := d.trace.toList

/-- The second pass is three steps, unless there are too many words. -/
theorem finish_eq (d : Draft) (config : Config) (lines : List String) :
    d.finish config lines =
      if 256 < d.slots.size then .error (.tooManyInstructions d.slots.size)
      else
        Slot.resolve d.labels d.slots.toList >>= fun code =>
          d.decodeTable config lines >>= fun decode =>
            (Program.ofTable code decode).mapError .encoding >>= fun program =>
              .ok (d.assembly decode program) := by
  rfl

/-- The second pass succeeds exactly when the words fit and its three steps succeed. -/
theorem finish_eq_ok_iff {asm : Assembly} :
    d.finish config lines = .ok asm ↔
      d.slots.size ≤ 256 ∧ ∃ code decode decodeWords,
        Slot.resolve d.labels d.slots.toList = .ok code ∧
          d.decodeTable config lines = .ok decode ∧ ∃ h : decode.words = .ok decodeWords,
            asm = d.assembly decode (.ofParts code decodeWords (DecodeTable.length_of_words h)) := by
  rw [finish_eq]
  by_cases hfits : d.slots.size ≤ 256
  · simp only [if_neg (Nat.not_lt.mpr hfits), bind_eq_ok_iff, mapError_eq_ok_iff,
      Program.ofTable_eq_ok_iff, Except.ok.injEq, hfits, true_and, eq_comm (a := asm)]
    constructor
    · rintro ⟨code, hcode, decode, hdecode, _, ⟨decodeWords, hwords, rfl⟩, hasm⟩
      exact ⟨code, decode, decodeWords, hcode, hdecode, hwords, hasm⟩
    · rintro ⟨code, decode, decodeWords, hcode, hdecode, hwords, hasm⟩
      exact ⟨code, hcode, decode, hdecode, _, ⟨decodeWords, hwords, rfl⟩, hasm⟩
  · rw [if_pos (Nat.lt_of_not_le hfits)]
    exact ⟨fun h => (nomatch h), fun h => absurd h.1 hfits⟩

/-- The second pass fails when there are too many words, and otherwise where its first failing step
does. -/
theorem finish_eq_error_iff {e : AsmError} :
    d.finish config lines = .error e ↔
      256 < d.slots.size ∧ e = .tooManyInstructions d.slots.size ∨
        d.slots.size ≤ 256 ∧
          (Slot.resolve d.labels d.slots.toList = .error e ∨
            ∃ code, Slot.resolve d.labels d.slots.toList = .ok code ∧
              (d.decodeTable config lines = .error e ∨
                ∃ decode, d.decodeTable config lines = .ok decode ∧
                  ∃ cause, decode.words = .error cause ∧ e = .encoding cause)) := by
  rw [finish_eq]
  by_cases hfits : d.slots.size ≤ 256
  · rw [if_neg (Nat.not_lt.mpr hfits)]
    simp only [bind_eq_error_iff, mapError_eq_error_iff, Program.ofTable_eq_error_iff, hfits,
      Nat.not_lt.mpr hfits, true_and, false_and, false_or, reduceCtorEq, and_false, exists_false,
      or_false, eq_comm (a := e)]
  · rw [if_pos (Nat.lt_of_not_le hfits)]
    simp only [Nat.lt_of_not_le hfits, hfits, true_and, false_and, or_false, Except.error.injEq,
      eq_comm (a := e)]

end Draft

/-! ## sources that assemble -/

/-- The control store that belongs to the lines of a source. -/
structure Source.Layout (lines : List String) (asm : Assembly) : Prop where
  length_words : asm.program.words.length = 512
  authored : asm.authored = wordCount lines
  /-- A regular instruction stands at the address of its line. -/
  word_at : ∀ i w, Holds lines i (.word w) → asm.program.get? (addressAt lines i) = some w
  /-- So does a jump, and it goes to the one line that defines its label. -/
  jump_at : ∀ i kind label, Holds lines i (.jump kind label) →
    ∃ j w, Holds lines j (.label label) ∧ (∀ j', Holds lines j' (.label label) → j' = j) ∧
      MicroWord.jump kind (addressAt lines j) = .ok w ∧
        asm.program.get? (addressAt lines i) = some w
  /-- Every word of the code comes from one line, and is a jump exactly when the line holds one. -/
  line_of : ∀ a < asm.authored, ∃ i line w,
    Holds lines i line ∧ line.emits = true ∧ addressAt lines i = a ∧
      (∀ i' line', Holds lines i' line' → line'.emits = true → addressAt lines i' = a → i' = i) ∧
        asm.program.get? a = some w ∧
          (w.jumpKind?.isSome = true ↔ ∃ kind label, line = .jump kind label)
  padding : ∀ a, asm.authored ≤ a → a < 256 → asm.program.get? a = some Program.paddingWord
  /-- An opcode with an entry address is a call of it. -/
  matched : ∀ opcode entry, asm.decode.get? opcode = some entry →
    ∃ w, MicroWord.jump .call entry.toNat = .ok w ∧
      asm.program.get? (Program.decodeBase + opcode.toNat) = some w
  unmatched : ∀ opcode, asm.decode.get? opcode = none →
    asm.program.get? (Program.decodeBase + opcode.toNat) = some DecodeTable.unmatchedWord

namespace Draft

variable {d : Draft} {config : Config} {lines : List String} {code decodeWords : List MicroWord}
  (hlength : decodeWords.length = 256)

/-- The word of a line that gives one stands at the address of the line. -/
theorem Reads.get?_ofParts (hd : d.Reads lines) (hfits : wordCount lines ≤ 256)
    (hcode : Slot.resolve d.labels d.slots.toList = .ok code) {i : Nat} {raw : String} {slot : Slot}
    (hraw : lines[i]? = some raw) (hslot : slot? raw (i + 1) = some slot) :
    ∃ w, slot.patch d.labels = .ok w ∧
      (Program.ofParts code decodeWords hlength).get? (addressAt lines i) = some w := by
  obtain ⟨w, hw, hpatch⟩ := hd.getElem?_resolve hcode hraw hslot
  have hlt := (List.getElem?_eq_some_iff.mp hw).1
  rw [hd.length_resolve hcode] at hlt
  refine ⟨w, hpatch, ?_⟩
  rw [Program.get?_ofParts_code _ _ (by omega), hw]
  rfl

theorem Reads.word_at (hd : d.Reads lines) (hfits : wordCount lines ≤ 256)
    (hcode : Slot.resolve d.labels d.slots.toList = .ok code) {i : Nat} {w : MicroWord}
    (hi : Holds lines i (.word w)) :
    (Program.ofParts code decodeWords hlength).get? (addressAt lines i) = some w := by
  obtain ⟨raw, hraw, hparse⟩ := hi
  obtain ⟨w', hpatch, hget⟩ := hd.get?_ofParts hlength hfits hcode hraw (slot?_word hparse (i + 1))
  rw [Slot.patch_of_target?_eq_none rfl] at hpatch
  rw [hget, ← Except.ok.inj hpatch]

theorem Reads.jump_at (hd : d.Reads lines) (hwf : WellFormed lines) (hfits : wordCount lines ≤ 256)
    (hcode : Slot.resolve d.labels d.slots.toList = .ok code) {i : Nat} {kind : JumpKind}
    {label : String} (hi : Holds lines i (.jump kind label)) :
    ∃ j w, Holds lines j (.label label) ∧ (∀ j', Holds lines j' (.label label) → j' = j) ∧
      MicroWord.jump kind (addressAt lines j) = .ok w ∧
        (Program.ofParts code decodeWords hlength).get? (addressAt lines i) = some w := by
  obtain ⟨j, hj, -⟩ := (hd.exists_resolve_iff hwf hfits).mp ⟨code, hcode⟩ i kind label hi
  obtain ⟨raw, hraw, hparse⟩ := hi
  obtain ⟨w, hpatch, hget⟩ := hd.get?_ofParts hlength hfits hcode hraw (slot?_jump hparse (i + 1))
  rw [hd.patch_jump hwf hfits hj] at hpatch
  exact ⟨j, w, hj, fun j' hj' => hwf.labels_unique j' j label hj' hj, hpatch, hget⟩

theorem Reads.line_of (hd : d.Reads lines) (hwf : WellFormed lines) (hfits : wordCount lines ≤ 256)
    (hcode : Slot.resolve d.labels d.slots.toList = .ok code) {a : Nat} (ha : a < wordCount lines) :
    ∃ i line w, Holds lines i line ∧ line.emits = true ∧ addressAt lines i = a ∧
      (∀ i' line', Holds lines i' line' → line'.emits = true → addressAt lines i' = a → i' = i) ∧
        (Program.ofParts code decodeWords hlength).get? a = some w ∧
          (w.jumpKind?.isSome = true ↔ ∃ kind label, line = .jump kind label) := by
  obtain ⟨i, raw, hraw, hemits, rfl⟩ := exists_line_of_lt_wordCount ha
  obtain ⟨line, hparse, hline⟩ := emits_eq_true_iff.mp hemits
  have hi : Holds lines i line := ⟨raw, hraw, hparse⟩
  have hunique : ∀ i' line', Holds lines i' line' → line'.emits = true →
      addressAt lines i' = addressAt lines i → i' = i := by
    rintro i' line' ⟨raw', hraw', hparse'⟩ hline' haddr
    exact eq_of_addressAt_eq hraw' hraw (emits_eq_true_iff.mpr ⟨line', hparse', hline'⟩) hemits haddr
  cases line with
  | label name => exact absurd hline Bool.false_ne_true
  | pragma p params => exact absurd hline Bool.false_ne_true
  | word w =>
      refine ⟨i, _, w, hi, hline, rfl, hunique, hd.word_at hlength hfits hcode hi, ?_⟩
      rw [Line.jumpKind?_of_parse hparse]
      simp
  | jump kind label =>
      obtain ⟨j, w, -, -, hw, hget⟩ := hd.jump_at hlength hwf hfits hcode hi
      refine ⟨i, _, w, hi, hline, rfl, hunique, hget, ?_⟩
      rw [MicroWord.jumpKind?_of_jump hw]
      simp

/-- The second pass lays the words of the source out. -/
theorem Reads.layout (hd : d.Reads lines) (hwf : WellFormed lines) {asm : Assembly}
    (h : d.finish config lines = .ok asm) : Layout lines asm := by
  obtain ⟨hfits, code, decode, decodeWords, hcode, hdecode, hwords, rfl⟩ := finish_eq_ok_iff.mp h
  rw [hd.size_slots] at hfits
  have hauthored : d.slots.size = wordCount lines := hd.size_slots
  have hlength := DecodeTable.length_of_words hwords
  have hopcode : ∀ opcode : UInt8,
      (Program.ofParts code decodeWords hlength).get? (Program.decodeBase + opcode.toNat) =
        some (DecodeTable.entryWord (decode.get? opcode)) := fun opcode => by
    rw [Program.get?_ofParts_decode, DecodeTable.getElem?_words hwords]
  refine
    { length_words := Program.length_words _
      authored := hauthored
      word_at := fun i w => hd.word_at hlength hfits hcode
      jump_at := fun i kind label => hd.jump_at hlength hwf hfits hcode
      line_of := fun a ha => hd.line_of hlength hwf hfits hcode (hauthored ▸ ha)
      padding := ?_
      matched := ?_
      unmatched := ?_ }
  · intro a hauthor ha
    replace hauthor : wordCount lines ≤ a := hauthored ▸ hauthor
    rw [assembly, Program.get?_ofParts_code _ _ ha,
      List.getElem?_eq_none (by rw [hd.length_resolve hcode]; exact hauthor)]
    rfl
  · intro opcode entry hentry
    have hmem := (PatternSet.mem_entries_of_decodeTable (mapError_eq_ok_iff.mp hdecode)).mpr
      ⟨opcode, hentry⟩
    have hlt := (DecodeTable.words_eq_ok_iff.mp hwords).1 entry hmem
    refine ⟨_, by rw [MicroWord.jump_eq, if_pos hlt], ?_⟩
    exact (hopcode opcode).trans (congrArg (fun e => some (DecodeTable.entryWord e)) hentry)
  · intro opcode hentry
    exact (hopcode opcode).trans (congrArg (fun e => some (DecodeTable.entryWord e)) hentry)

end Draft

/-- An assembly is put together from the draft that the lines describe. -/
theorem exists_reads_of_assembleLines {config : Config} {lines : List String} {asm : Assembly}
    (h : assembleLines config lines = .ok asm) :
    WellFormed lines ∧ ∃ d : Draft, d.Reads lines ∧ d.finish config lines = .ok asm := by
  obtain ⟨d, hd, hfinish⟩ := bind_eq_ok_iff.mp h
  exact ⟨Draft.exists_ofLines_iff.mp ⟨d, hd⟩, d, Draft.reads_of_ofLines hd, hfinish⟩

/-- The words of an assembly are laid out as the lines say. -/
theorem layout_of_assembleLines {config : Config} {lines : List String} {asm : Assembly}
    (h : assembleLines config lines = .ok asm) : Layout lines asm := by
  obtain ⟨hwf, d, hd, hfinish⟩ := exists_reads_of_assembleLines h
  exact hd.layout hwf hfinish

/-- A source that assembles gives the control store that belongs to its lines. -/
theorem assemble_layout {config : Config} {source : String} {asm : Assembly}
    (h : assemble config source = .ok asm) : Layout (Text.linesOf source) asm := by
  obtain ⟨d, hd, hfinish⟩ := bind_eq_ok_iff.mp h
  exact (Draft.reads_of_ofLines hd).layout (Draft.exists_ofLines_iff.mp ⟨d, hd⟩) hfinish

/-- A jump to a later line and one to an earlier line. -/
theorem assemble_layout_forward_backward :
    ∃ asm,
      assemble {} ":loop\nJSR done\n__code \"0000---1\"\nNOP\n:done\nTJSR loop\n" = .ok asm ∧
        Layout
          (Text.linesOf ":loop\nJSR done\n__code \"0000---1\"\nNOP\n:done\nTJSR loop\n") asm ∧
          asm.program.words.take 4 =
            [.ofNat 0x08000002, .zero, .ofNat 0x10000000, Program.paddingWord] := by
  have hwords :
      (assemble {} ":loop\nJSR done\n__code \"0000---1\"\nNOP\n:done\nTJSR loop\n").map
          (·.program.words.take 4) =
        .ok [.ofNat 0x08000002, .zero, .ofNat 0x10000000, Program.paddingWord] := by
    decide +kernel
  obtain ⟨asm, h, hasm⟩ := map_eq_ok_iff.mp hwords
  exact ⟨asm, h, assemble_layout h, hasm⟩

/-! ## outcomes -/

namespace Draft

variable {d : Draft} {config : Config} {lines : List String}

/-- When the second pass succeeds. -/
theorem Reads.exists_finish_iff (hd : d.Reads lines) (hwf : WellFormed lines) :
    (∃ asm, d.finish config lines = .ok asm) ↔ Assembles config lines := by
  simp only [finish_eq_ok_iff, hd.size_slots]
  constructor
  · rintro ⟨asm, hfits, code, decode, decodeWords, hcode, hdecode, hwords, -⟩
    exact
      { wellFormed := hwf
        fits := hfits
        jumps_land := (hd.exists_resolve_iff hwf hfits).mp ⟨code, hcode⟩
        unambiguous := hd.exists_decodeTable_iff.mp ⟨decode, hdecode⟩
        entries_land := (hd.exists_words_iff hfits hdecode).mp ⟨decodeWords, hwords⟩ }
  · intro h
    obtain ⟨code, hcode⟩ := (hd.exists_resolve_iff hwf h.fits).mpr h.jumps_land
    obtain ⟨decode, hdecode⟩ := hd.exists_decodeTable_iff.mpr h.unambiguous
    obtain ⟨decodeWords, hwords⟩ := (hd.exists_words_iff h.fits hdecode).mpr h.entries_land
    exact ⟨_, h.fits, code, decode, decodeWords, hcode, hdecode, hwords, rfl⟩

/-- When the second pass finds too many words. -/
theorem Reads.finish_eq_tooManyInstructions_iff (hd : d.Reads lines) {n : Nat} :
    d.finish config lines = .error (.tooManyInstructions n) ↔
      256 < wordCount lines ∧ n = wordCount lines := by
  rw [finish_eq_error_iff, hd.size_slots]
  constructor
  · rintro (⟨hmany, hn⟩ | ⟨-, hresolve | ⟨code, -, hdecode | ⟨decode, -, cause, -, hcause⟩⟩⟩)
    · exact ⟨hmany, AsmError.tooManyInstructions.inj hn⟩
    · rcases Slot.resolve_eq_error hresolve with ⟨cause, he⟩ | ⟨jumps, he⟩ <;> exact nomatch he
    · obtain ⟨line, text, cause, he, -⟩ := decodeTable_eq_error hdecode
      exact nomatch he
    · exact nomatch hcause
  · rintro ⟨hmany, rfl⟩
    exact .inl ⟨hmany, rfl⟩

/-- When the second pass fails in the packer. -/
theorem Reads.finish_eq_encoding_iff (hd : d.Reads lines) (hwf : WellFormed lines)
    {cause : EncodingError} :
    d.finish config lines = .error (.encoding cause) ↔
      cause = .overflow 256 8 ∧ PastEnd config lines := by
  rw [finish_eq_error_iff, hd.size_slots]
  constructor
  · rintro (⟨-, he⟩ | ⟨hfits, hresolve |
      ⟨code, hcode, hdecode | ⟨decode, hdecode, cause', hwords, he⟩⟩⟩)
    · contradiction
    · obtain ⟨hcause, hjump⟩ := (hd.resolve_eq_encoding_iff hwf hfits).mp hresolve
      exact ⟨hcause, hwf, hfits, .inl hjump⟩
    · obtain ⟨line, text, cause', he, -⟩ := decodeTable_eq_error hdecode
      exact nomatch he
    · obtain rfl := AsmError.encoding.inj he
      obtain ⟨hcause, hentry⟩ := (hd.words_eq_error_iff hfits hdecode).mp hwords
      exact ⟨hcause, hwf, hfits, .inr ⟨(hd.exists_resolve_iff hwf hfits).mp ⟨code, hcode⟩,
        hd.exists_decodeTable_iff.mp ⟨decode, hdecode⟩, hentry⟩⟩
  · rintro ⟨hcause, -, hfits, hjump | ⟨hland, hunambiguous, hentry⟩⟩
    · exact .inr ⟨hfits, .inl ((hd.resolve_eq_encoding_iff hwf hfits).mpr ⟨hcause, hjump⟩)⟩
    · obtain ⟨code, hcode⟩ := (hd.exists_resolve_iff hwf hfits).mpr hland
      obtain ⟨decode, hdecode⟩ := hd.exists_decodeTable_iff.mpr hunambiguous
      have hwords := (hd.words_eq_error_iff hfits hdecode).mpr ⟨hcause, hentry⟩
      exact .inr ⟨hfits, .inr ⟨code, hcode, .inr ⟨decode, hdecode, cause, hwords, rfl⟩⟩⟩

/-- The second pass blames a line for the decode table only. -/
theorem decodeTable_of_finish_eq_source {line : Nat} {text : String} {cause : LineError}
    (h : d.finish config lines = .error (.source line text cause)) :
    d.decodeTable config lines = .error (.source line text cause) := by
  rcases finish_eq_error_iff.mp h with
    ⟨-, he⟩ | ⟨-, hresolve | ⟨code, -, hdecode | ⟨decode, -, cause', -, he⟩⟩⟩
  · exact nomatch he
  · rcases Slot.resolve_eq_error hresolve with ⟨cause', he⟩ | ⟨jumps, he⟩ <;> exact nomatch he
  · exact hdecode
  · exact nomatch he

/-- The second pass never blames a line for an error of the packer. -/
theorem kind_of_finish_eq_source {line : Nat} {text : String} {cause : LineError}
    (h : d.finish config lines = .error (.source line text cause)) :
    cause.kind ≠ .encodingOverflow := by
  obtain ⟨line', text', cause', he, hkind⟩ :=
    decodeTable_eq_error (decodeTable_of_finish_eq_source h)
  rw [(AsmError.source.inj he).2.2]
  exact hkind

end Draft

/-- An error that is not of a line comes from the second pass. -/
theorem assemble_eq_error_iff {config : Config} {source : String} {e : AsmError}
    (he : ∀ line text cause, e ≠ .source line text cause) :
    assemble config source = .error e ↔
      ∃ d, Draft.ofLines (Text.linesOf source) = .ok d ∧
        d.finish config (Text.linesOf source) = .error e := by
  refine bind_eq_error_iff.trans (or_iff_right fun hfirst => ?_)
  obtain ⟨line, text, cause, rfl, -⟩ := Draft.ofLines_eq_error hfirst
  exact he line text cause rfl

/-- Which sources assemble, and which are refused for having too many words. -/
theorem exists_assemble_iff (config : Config) (source : String) :
    ((∃ asm, assemble config source = .ok asm) ↔ Assembles config (Text.linesOf source)) ∧
      ∀ n, assemble config source = .error (.tooManyInstructions n) ↔
        WellFormed (Text.linesOf source) ∧ 256 < wordCount (Text.linesOf source) ∧
          n = wordCount (Text.linesOf source) := by
  constructor
  · constructor
    · rintro ⟨asm, h⟩
      obtain ⟨d, hd, hfinish⟩ := bind_eq_ok_iff.mp h
      have hwf := Draft.exists_ofLines_iff.mp ⟨d, hd⟩
      exact ((Draft.reads_of_ofLines hd).exists_finish_iff hwf).mp ⟨asm, hfinish⟩
    · intro h
      obtain ⟨d, hd⟩ := Draft.exists_ofLines_iff.mpr h.wellFormed
      obtain ⟨asm, hfinish⟩ :=
        ((Draft.reads_of_ofLines hd).exists_finish_iff h.wellFormed).mpr h
      exact ⟨asm, bind_eq_ok_iff.mpr ⟨d, hd, hfinish⟩⟩
  · intro n
    rw [assemble_eq_error_iff (by simp)]
    constructor
    · rintro ⟨d, hd, hfinish⟩
      exact ⟨Draft.exists_ofLines_iff.mp ⟨d, hd⟩,
        (Draft.reads_of_ofLines hd).finish_eq_tooManyInstructions_iff.mp hfinish⟩
    · rintro ⟨hwf, hmany⟩
      obtain ⟨d, hd⟩ := Draft.exists_ofLines_iff.mpr hwf
      exact ⟨d, hd, (Draft.reads_of_ofLines hd).finish_eq_tooManyInstructions_iff.mpr hmany⟩

/-- The packer fails exactly for sources that reach past the end, and no line is ever blamed for an
error of the packer. -/
theorem assemble_eq_encoding_iff (config : Config) (source : String) :
    (∀ cause, assemble config source = .error (.encoding cause) ↔
      cause = .overflow 256 8 ∧ PastEnd config (Text.linesOf source)) ∧
      ∀ line text cause,
        assemble config source ≠ .error (.source line text (.encoding cause)) := by
  constructor
  · intro cause
    rw [assemble_eq_error_iff (by simp)]
    constructor
    · rintro ⟨d, hd, hfinish⟩
      have hwf := Draft.exists_ofLines_iff.mp ⟨d, hd⟩
      exact ((Draft.reads_of_ofLines hd).finish_eq_encoding_iff hwf).mp hfinish
    · rintro ⟨hcause, hpast⟩
      obtain ⟨d, hd⟩ := Draft.exists_ofLines_iff.mpr hpast.1
      have hreads := Draft.reads_of_ofLines hd
      exact ⟨d, hd, (hreads.finish_eq_encoding_iff hpast.1).mpr ⟨hcause, hpast⟩⟩
  · intro line text cause h
    rcases bind_eq_error_iff.mp h with hfirst | ⟨d, -, hfinish⟩
    · obtain ⟨line', text', cause', he, hkind⟩ := Draft.ofLines_eq_error hfirst
      rw [← (AsmError.source.inj he).2.2] at hkind
      exact hkind rfl
    · exact Draft.kind_of_finish_eq_source hfinish rfl

/-- A jump to a label after the last of 256 words makes the packer fail. -/
theorem assemble_jump_past_end :
    assemble {} ("JSR e\n" ++ String.join (List.replicate 255 "NOP\n") ++ ":e\n") =
      .error (.encoding (.overflow 256 8)) := by
  have hlines : Text.linesOf ("JSR e\n" ++ String.join (List.replicate 255 "NOP\n") ++ ":e\n") =
      "JSR e" :: List.replicate 255 "NOP" ++ [":e"] := by
    rw [Text.linesOf, String.toList_append, String.toList_append, String.toList_join]
    decide +kernel
  rw [assemble, hlines]
  decide +kernel

end Microcode
