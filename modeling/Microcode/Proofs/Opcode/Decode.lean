import Microcode.Opcode.Decode
import Microcode.Proofs.Result
import Microcode.Proofs.Word.Jump

/-!
# Microcode.Proofs.Opcode.Decode

The decode table against the texts of the patterns.

A pattern is known by its text alone: `PatternText.Matches` and `PatternText.wildcards` say which
opcodes a text matches and how many wildcards it has, without symbols and costs.  In these terms

* `mem_cheapest_iff` — the cheapest patterns for an opcode are those that match it with the fewest
  wildcards;
* `decodeTable_eq_ok_iff` — a table has the entry of the first of them for every opcode, and is
  refused exactly when ties are and some opcode has two of them;
* `words_eq_ok_iff` — the table can be encoded exactly when every entry has at most eight bits.
-/

namespace Microcode

open Result

/-! ## the texts of patterns -/

namespace PatternText

/-- The text of a pattern: the parameters of its line without double quotes. -/
def unquoted (params : String) : List Char := params.toList.filter (· != '"')

/-- A text is a pattern when it has one character for each bit of an opcode, none of them blank. -/
def Valid (text : List Char) : Prop := text.length = 8 ∧ ∀ c ∈ text, Text.isBlank c = false

/-- An opcode matches a text when every `0` and `1` of the text is its bit in that place. -/
def Matches (text : List Char) (opcode : UInt8) : Prop :=
  ∀ k c, text[k]? = some c →
    (c = '0' → opcode.toNat.testBit (7 - k) = false) ∧
      (c = '1' → opcode.toNat.testBit (7 - k) = true)

/-- The number of characters of a text that are neither `0` nor `1`. -/
def wildcards (text : List Char) : Nat := text.countP fun c => c != '0' && c != '1'

/-- The test that a pattern is read by. -/
theorem valid_unquoted_iff {params : String} :
    Valid (unquoted params) ↔
      (params.toList.filter (· != '"')).length = 8 ∧
        !(params.toList.filter (· != '"')).any Text.isBlank := by
  simp only [Valid, unquoted, Bool.not_eq_true', List.any_eq_false, Bool.not_eq_true]

end PatternText

/-- Which bits a character of a pattern admits. -/
theorem Symbol.admits_ofChar_iff {c : Char} {bit : Bool} :
    (Symbol.ofChar c).admits bit = true ↔ (c = '0' → bit = false) ∧ (c = '1' → bit = true) := by
  unfold Symbol.ofChar
  split
  · simp [Symbol.admits]
  · simp [Symbol.admits]
  · next h0 h1 => exact ⟨fun _ => ⟨fun h => (h0 h).elim, fun h => (h1 h).elim⟩, fun _ => rfl⟩

/-- A character of a pattern is a wildcard unless it is a digit. -/
theorem Symbol.ofChar_beq_any (c : Char) :
    (Symbol.ofChar c == .any) = (c != '0' && c != '1') := by
  unfold Symbol.ofChar
  split
  · rfl
  · rfl
  · next h0 h1 =>
      have hzero : (c != '0') = true := bne_iff_ne.mpr h0
      have hone : (c != '1') = true := bne_iff_ne.mpr h1
      rw [hzero, hone]
      rfl

namespace OpcodePattern

/-- A pattern is read exactly when its text is one. -/
theorem parse_eq_ok_iff {params : String} {entry : UInt16} {line : Nat} {p : OpcodePattern} :
    parse params entry line = .ok p ↔
      PatternText.Valid (PatternText.unquoted params) ∧
        p.text = String.ofList (PatternText.unquoted params) ∧ p.entry = entry ∧ p.line = line := by
  rw [PatternText.valid_unquoted_iff]
  unfold parse
  simp only
  split
  · next h =>
      constructor
      · intro hp
        rw [← Except.ok.inj hp]
        exact ⟨h, rfl, rfl, rfl⟩
      · rintro ⟨-, htext, hentry, hline⟩
        obtain ⟨text, entry', line', hlen⟩ := p
        simp only at htext hentry hline
        subst htext hentry hline
        rfl
  · next h =>
      constructor
      · intro hp
        contradiction
      · intro hp
        exact absurd hp.1 h

/-- A pattern is refused exactly when its text is none. -/
theorem parse_eq_error_iff {params : String} {entry : UInt16} {line : Nat} {e : LineError} :
    parse params entry line = .error e ↔
      ¬PatternText.Valid (PatternText.unquoted params) ∧
        e = .invalidPattern (String.ofList (PatternText.unquoted params)) := by
  rw [PatternText.valid_unquoted_iff]
  unfold parse
  simp only
  split
  · next h => exact ⟨fun he => (nomatch he), fun he => absurd h he.1⟩
  · next h => exact ⟨fun he => ⟨h, (Except.error.inj he).symm⟩, fun he => he.2 ▸ rfl⟩

/-- The places of a pattern and the bits of an opcode are compared one by one. -/
theorem covers_iff (p : OpcodePattern) (opcode : UInt8) :
    p.covers opcode = true ↔ PatternText.Matches p.text.toList opcode := by
  have hlen : (p.symbols.zipWith Symbol.admits (Bits.ofNat 8 opcode.toNat)).length = 8 := by
    simp
  have hplace : ∀ k (_ : k < (p.symbols.zipWith Symbol.admits (Bits.ofNat 8 opcode.toNat)).length)
      (_ : k < p.text.toList.length),
      (p.symbols.zipWith Symbol.admits (Bits.ofNat 8 opcode.toNat))[k] =
        (Symbol.ofChar p.text.toList[k]).admits (opcode.toNat.testBit (7 - k)) := by
    intro k _ _
    simp [symbols, Bits.ofNat]
  unfold covers
  rw [List.all_eq_true]
  constructor
  · intro h k c hc
    obtain ⟨hk, rfl⟩ := List.getElem?_eq_some_iff.mp hc
    have hzip := hlen.trans p.length_text.symm ▸ hk
    have hadmits := h _ (List.getElem_mem hzip)
    rw [hplace k hzip hk] at hadmits
    exact Symbol.admits_ofChar_iff.mp hadmits
  · intro h b hb
    obtain ⟨k, hk, rfl⟩ := List.mem_iff_getElem.mp hb
    have htext : k < p.text.toList.length := by rw [p.length_text, ← hlen]; exact hk
    rw [hplace k hk htext]
    exact Symbol.admits_ofChar_iff.mpr (h k _ (List.getElem?_eq_getElem htext))

/-- The cost of a pattern is the number of wildcards of its text. -/
theorem cost_eq (p : OpcodePattern) : p.cost = PatternText.wildcards p.text.toList := by
  rw [cost, symbols, List.count, List.countP_map, PatternText.wildcards]
  congr 1
  funext c
  exact Symbol.ofChar_beq_any c

end OpcodePattern

namespace PatternSet

/-! ## registration -/

/-- A pattern is registered, after the others, exactly when no other has its text. -/
theorem register_eq_ok_iff {s s' : PatternSet} {p : OpcodePattern} :
    s.register p = .ok s' ↔
      s.patterns.find? (·.text == p.text) = none ∧ s' = ⟨s.patterns ++ [p]⟩ := by
  unfold register
  split
  · next h => simp [h]
  · next h => simp [h, eq_comm]

/-- A sequence of patterns is registered, in this order, exactly when no two of them have the same
text and none has that of an earlier pattern. -/
theorem foldlM_register_eq_ok_iff {ps : List OpcodePattern} {s s' : PatternSet} :
    ps.foldlM register s = .ok s' ↔
      s' = ⟨s.patterns ++ ps⟩ ∧ (∀ q ∈ s.patterns, ∀ p ∈ ps, q.text ≠ p.text) ∧
        ps.Pairwise fun p q => p.text ≠ q.text := by
  induction ps generalizing s with
  | nil => simp [pure, Except.pure, eq_comm]
  | cons p ps ih =>
      simp only [List.foldlM_cons, bind_eq_ok_iff, register_eq_ok_iff, ih, List.find?_eq_none,
        beq_iff_eq, List.pairwise_cons]
      constructor
      · rintro ⟨_, ⟨hfresh, rfl⟩, rfl, hold, hpairwise⟩
        simp only [List.forall_mem_append, List.forall_mem_singleton] at hold
        refine ⟨by simp, fun q hq => ?_, hold.2, hpairwise⟩
        exact List.forall_mem_cons.mpr ⟨hfresh q hq, hold.1 q hq⟩
      · rintro ⟨rfl, hold, hnew, hpairwise⟩
        refine ⟨_, ⟨fun q hq => hold q hq p List.mem_cons_self, rfl⟩, by simp, ?_, hpairwise⟩
        simp only [List.forall_mem_append, List.forall_mem_singleton]
        exact ⟨fun q hq p' hp' => hold q hq p' (List.mem_cons_of_mem _ hp'), hnew⟩

/-- A pattern is refused exactly when another has its text. -/
theorem register_eq_error_iff {s : PatternSet} {p : OpcodePattern} {e : LineError} :
    s.register p = .error e ↔
      ∃ q, s.patterns.find? (·.text == p.text) = some q ∧ e = .duplicatePattern p.text q.line := by
  unfold register
  split
  · next h => simp [h, eq_comm]
  · next h => simp [h]

/-! ## the cheapest patterns -/

/-- The cheapest patterns stand in the order of registration. -/
theorem cheapest_sublist (s : PatternSet) (opcode : UInt8) :
    (s.cheapest opcode).Sublist s.patterns := by
  unfold cheapest
  simp only
  split
  · exact List.nil_sublist _
  · exact List.filter_sublist.trans List.filter_sublist

/-- The cheapest patterns for an opcode are those that match it with the fewest wildcards. -/
theorem mem_cheapest_iff {s : PatternSet} {opcode : UInt8} {p : OpcodePattern} :
    p ∈ s.cheapest opcode ↔
      p ∈ s.patterns ∧ PatternText.Matches p.text.toList opcode ∧
        ∀ q ∈ s.patterns, PatternText.Matches q.text.toList opcode →
          PatternText.wildcards p.text.toList ≤ PatternText.wildcards q.text.toList := by
  have hmem : ∀ q, q ∈ s.patterns.filter (·.covers opcode) ↔
      q ∈ s.patterns ∧ PatternText.Matches q.text.toList opcode := fun q => by
    rw [List.mem_filter, q.covers_iff]
  unfold cheapest
  simp only
  split
  · next hnone =>
      rw [List.min?_eq_none_iff, List.map_eq_nil_iff] at hnone
      constructor
      · intro hp
        exact absurd hp List.not_mem_nil
      · rintro ⟨hp, hmatch, -⟩
        have := (hmem p).mpr ⟨hp, hmatch⟩
        rw [hnone] at this
        exact absurd this List.not_mem_nil
  · next least hleast =>
      obtain ⟨hattained, hbound⟩ := List.min?_eq_some_iff.mp hleast
      rw [List.mem_filter, hmem, beq_iff_eq, and_assoc]
      refine and_congr_right fun hp => and_congr_right fun hmatch => ?_
      constructor
      · rintro rfl q hq hqm
        have := hbound _ (List.mem_map_of_mem ((hmem q).mpr ⟨hq, hqm⟩))
        rwa [p.cost_eq, q.cost_eq] at this
      · intro hmin
        obtain ⟨q, hq, hcost⟩ := List.mem_map.mp hattained
        obtain ⟨hqs, hqm⟩ := (hmem q).mp hq
        have hle := hmin q hqs hqm
        rw [← p.cost_eq, ← q.cost_eq, hcost] at hle
        exact Nat.le_antisymm hle (hbound _ (List.mem_map_of_mem ((hmem p).mpr ⟨hp, hmatch⟩)))

/-! ## the table -/

/-- The pattern that decodes an opcode is the first of the cheapest, and there is none only when
ties are refused and there are two of them. -/
theorem bestMatch_eq_ok_iff {s : PatternSet} {opcode : UInt8} {tie : TieBreak}
    {found : Option OpcodePattern} :
    s.bestMatch opcode tie = .ok found ↔
      (tie = .reject → (s.cheapest opcode).length ≤ 1) ∧ found = (s.cheapest opcode).head? := by
  unfold bestMatch
  rcases hcheap : s.cheapest opcode with _ | ⟨first, _ | ⟨second, rest⟩⟩
  · cases tie <;> simp [eq_comm]
  · cases tie <;> simp [eq_comm]
  · cases tie <;> simp [eq_comm]

/-- An opcode is not decoded exactly when ties are refused and there are two cheapest patterns; the
first two are the ones reported. -/
theorem bestMatch_eq_error_iff {s : PatternSet} {opcode : UInt8} {tie : TieBreak} {a : Ambiguity} :
    s.bestMatch opcode tie = .error a ↔
      tie = .reject ∧ a.opcode = opcode ∧
        ∃ rest, s.cheapest opcode = a.first :: a.second :: rest := by
  obtain ⟨opcode', first', second'⟩ := a
  unfold bestMatch
  rcases s.cheapest opcode with _ | ⟨first, _ | ⟨second, rest⟩⟩
  · cases tie <;> simp
  · cases tie <;> simp
  · cases tie <;> simp [eq_comm]

/-- The entry address of an opcode: that of the first of the cheapest patterns. -/
def entry? (s : PatternSet) (opcode : UInt8) : Option UInt16 :=
  (s.cheapest opcode).head?.map (·.entry)

/-- An opcode has its entry address, unless ties are refused and it has one. -/
theorem entryFor_eq_ok_iff {s : PatternSet} {opcode : UInt8} {tie : TieBreak}
    {entry : Option UInt16} :
    s.entryFor tie opcode = .ok entry ↔
      (tie = .reject → (s.cheapest opcode).length ≤ 1) ∧ entry = s.entry? opcode := by
  rw [entryFor, bind_eq_ok_iff]
  constructor
  · rintro ⟨found, hfound, hentry⟩
    obtain ⟨htie, rfl⟩ := bestMatch_eq_ok_iff.mp hfound
    exact ⟨htie, (Except.ok.inj hentry).symm⟩
  · rintro ⟨htie, rfl⟩
    exact ⟨_, bestMatch_eq_ok_iff.mpr ⟨htie, rfl⟩, rfl⟩

/-- An opcode has no entry address exactly when it has no pattern to choose. -/
theorem entryFor_eq_error_iff {s : PatternSet} {opcode : UInt8} {tie : TieBreak} {a : Ambiguity} :
    s.entryFor tie opcode = .error a ↔ s.bestMatch opcode tie = .error a := by
  unfold entryFor
  cases s.bestMatch opcode tie <;> simp [bind, Except.bind, pure, Except.pure]

/-- The entries of a table are looked up opcode by opcode. -/
theorem decodeTable_eq_ok_iff_mapM {s : PatternSet} {tie : TieBreak} {t : DecodeTable} :
    s.decodeTable tie = .ok t ↔
      (List.range 256).mapM (fun v => s.entryFor tie (.ofNat v)) = .ok t.entries := by
  unfold decodeTable
  split
  · next entries h => simp only [h, Except.ok.injEq, DecodeTable.ext_iff]
  · next a h => simp [h]

theorem decodeTable_eq_error_iff_mapM {s : PatternSet} {tie : TieBreak} {a : Ambiguity} :
    s.decodeTable tie = .error a ↔
      (List.range 256).mapM (fun v => s.entryFor tie (.ofNat v)) = .error a := by
  unfold decodeTable
  split
  · next entries h => simp [h]
  · next a' h => simp only [h, Except.error.injEq]

/-- A table has the entry addresses of all opcodes.  It is refused exactly when ties are and some
opcode has two cheapest patterns. -/
theorem decodeTable_eq_ok_iff {s : PatternSet} {tie : TieBreak} {t : DecodeTable} :
    s.decodeTable tie = .ok t ↔
      (tie = .reject → ∀ opcode, (s.cheapest opcode).length ≤ 1) ∧
        t.entries = (List.range 256).map fun v => s.entry? (.ofNat v) := by
  have hopcodes : (∀ v ∈ List.range 256, tie = .reject → (s.cheapest (.ofNat v)).length ≤ 1) ↔
      (tie = .reject → ∀ opcode, (s.cheapest opcode).length ≤ 1) := by
    constructor
    · intro h htie opcode
      have := h opcode.toNat (List.mem_range.mpr opcode.toNat_lt) htie
      rwa [UInt8.ofNat_toNat] at this
    · intro h v _ htie
      exact h htie _
  rw [decodeTable_eq_ok_iff_mapM, ← hopcodes]
  exact mapM_eq_ok_iff_map fun _ _ => entryFor_eq_ok_iff

/-- There is a table unless ties are refused and there are some. -/
theorem exists_decodeTable_iff {s : PatternSet} {tie : TieBreak} :
    (∃ t, s.decodeTable tie = .ok t) ↔
      (tie = .reject → ∀ opcode, (s.cheapest opcode).length ≤ 1) := by
  have hlength : ((List.range 256).map fun v => s.entry? (.ofNat v)).length = 256 := by
    rw [List.length_map, List.length_range]
  simp only [decodeTable_eq_ok_iff]
  exact ⟨fun ⟨_, h, _⟩ => h, fun h => ⟨⟨_, hlength⟩, h, rfl⟩⟩

/-- A table is refused for the smallest opcode that has two cheapest patterns. -/
theorem decodeTable_eq_error_iff {s : PatternSet} {tie : TieBreak} {a : Ambiguity} :
    s.decodeTable tie = .error a ↔
      tie = .reject ∧ (∃ rest, s.cheapest a.opcode = a.first :: a.second :: rest) ∧
        ∀ opcode < a.opcode, (s.cheapest opcode).length ≤ 1 := by
  -- opcodes are looked up in turn, so the first one that fails has only successes before it
  have hsucceeds : ∀ v, (∃ entry, s.entryFor tie (.ofNat v) = .ok entry) ↔
      (tie = .reject → (s.cheapest (.ofNat v)).length ≤ 1) := by
    intro v
    simp only [entryFor_eq_ok_iff]
    exact ⟨fun ⟨_, h, _⟩ => h, fun h => ⟨_, h, rfl⟩⟩
  simp only [decodeTable_eq_error_iff_mapM, mapM_eq_error_iff, entryFor_eq_error_iff, hsucceeds,
    bestMatch_eq_error_iff]
  constructor
  · rintro ⟨k, v, hv, ⟨htie, hopcode, hties⟩, hbefore⟩
    obtain ⟨hk, rfl⟩ := List.getElem?_eq_some_iff.mp hv
    rw [List.length_range] at hk
    rw [List.getElem_range] at hopcode hties
    refine ⟨htie, hopcode ▸ hties, fun opcode hlt => ?_⟩
    rw [UInt8.lt_iff_toNat_lt, hopcode, UInt8.toNat_ofNat', Nat.mod_eq_of_lt hk] at hlt
    have := hbefore _ hlt _ (List.getElem?_range (by omega)) htie
    rwa [UInt8.ofNat_toNat] at this
  · rintro ⟨htie, hties, hbefore⟩
    refine ⟨a.opcode.toNat, a.opcode.toNat, List.getElem?_range a.opcode.toNat_lt, ?_, ?_⟩
    · rw [UInt8.ofNat_toNat]
      exact ⟨htie, rfl, hties⟩
    · intro j hj v hv _
      have hlt := a.opcode.toNat_lt
      obtain rfl : j = v := by
        rw [List.getElem?_range (by omega)] at hv
        exact Option.some.inj hv
      apply hbefore
      rw [UInt8.lt_iff_toNat_lt, UInt8.toNat_ofNat', Nat.mod_eq_of_lt (by omega)]
      exact hj

/-- A finished table gives every opcode its entry address. -/
theorem get?_of_decodeTable {s : PatternSet} {tie : TieBreak} {t : DecodeTable}
    (h : s.decodeTable tie = .ok t) (opcode : UInt8) : t.get? opcode = s.entry? opcode := by
  have hlt : opcode.toNat < 256 := opcode.toNat_lt
  rw [DecodeTable.get?, (decodeTable_eq_ok_iff.mp h).2, List.getElem?_map,
    List.getElem?_range hlt, Option.map_some, UInt8.ofNat_toNat]
  rfl

/-- The entries of a finished table are those of the opcodes. -/
theorem mem_entries_of_decodeTable {s : PatternSet} {tie : TieBreak} {t : DecodeTable}
    (h : s.decodeTable tie = .ok t) {entry : Option UInt16} :
    entry ∈ t.entries ↔ ∃ opcode, t.get? opcode = entry := by
  simp only [get?_of_decodeTable h]
  rw [(decodeTable_eq_ok_iff.mp h).2, List.mem_map]
  constructor
  · rintro ⟨v, -, hv⟩
    exact ⟨.ofNat v, hv⟩
  · rintro ⟨opcode, hopcode⟩
    exact ⟨opcode.toNat, List.mem_range.mpr opcode.toNat_lt, by rw [UInt8.ofNat_toNat, hopcode]⟩

end PatternSet

namespace DecodeTable

/-! ## the words of the table -/

/-- The word of an entry; there is none for an entry of more than eight bits. -/
def entryWord (entry : Option UInt16) : MicroWord :=
  match entry with
  | some entry => (MicroWord.opened .call).aimed entry.toNat
  | none => unmatchedWord

/-- A table can be encoded exactly when every entry has at most eight bits. -/
theorem words_eq_ok_iff {t : DecodeTable} {words : List MicroWord} :
    t.words = .ok words ↔
      (∀ entry, some entry ∈ t.entries → entry.toNat < 256) ∧
        words = t.entries.map entryWord := by
  have hstep : ∀ (x : Option UInt16) (w : MicroWord),
      (match x with
        | some entry => MicroWord.jump .call entry.toNat
        | none => .ok unmatchedWord) = .ok w ↔
        (∀ entry, x = some entry → entry.toNat < 256) ∧ w = entryWord x := by
    intro x w
    cases x with
    | none => simp [entryWord, eq_comm]
    | some entry =>
        simp only [MicroWord.jump_eq]
        by_cases hlt : entry.toNat < 256
        · simp [hlt, entryWord, eq_comm]
        · simp [hlt]
  have hentries : (∀ x ∈ t.entries, ∀ entry, x = some entry → entry.toNat < 256) ↔
      ∀ entry, some entry ∈ t.entries → entry.toNat < 256 :=
    ⟨fun h entry hmem => h _ hmem entry rfl, fun h x hx entry hentry => h entry (hentry ▸ hx)⟩
  rw [← hentries]
  exact mapM_eq_ok_iff_map hstep

/-- The word of an opcode is that of its entry. -/
theorem getElem?_words {t : DecodeTable} {words : List MicroWord} (h : t.words = .ok words)
    (opcode : UInt8) : words[opcode.toNat]? = some (entryWord (t.get? opcode)) := by
  have hlt : opcode.toNat < t.entries.length := by rw [t.length_entries]; exact opcode.toNat_lt
  rw [(words_eq_ok_iff.mp h).2, List.getElem?_map, get?, List.getElem?_eq_getElem hlt]
  rfl

/-- A table that cannot be encoded has an entry of more than eight bits. -/
theorem exists_entry_of_words_eq_error {t : DecodeTable} {e : EncodingError}
    (h : t.words = .error e) :
    ∃ entry, some entry ∈ t.entries ∧ 256 ≤ entry.toNat ∧ e = .overflow entry.toNat 8 := by
  obtain ⟨x, hx, he⟩ := exists_mem_of_mapM_eq_error h
  cases x with
  | none => contradiction
  | some entry =>
      simp only [MicroWord.jump_eq] at he
      split at he
      · contradiction
      · next hlt => exact ⟨entry, hx, Nat.le_of_not_lt hlt, (Except.error.inj he).symm⟩

end DecodeTable

end Microcode
