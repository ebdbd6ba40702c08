import Microcode.Proofs.Opcode.Decode

/-!
# Microcode.Proofs.Opcode.Specificity

The decode table picks the most specific pattern for every opcode.

How specific a pattern is, is said here by counting the opcodes that match it
(`PatternText.matchCount`).  The table compares numbers of wildcards instead.  Both come to the
same, since every wildcard doubles the number of opcodes that match (`OpcodePattern.matchCount_eq`).
So the cheapest patterns are the most specific ones in the order of registration
(`PatternSet.cheapest_eq_filter`), and

* `exists_cheapest_eq_cons_iff` — the first of them is the one that `Wins` the opcode;
* `exists_cheapest_eq_cons_cons_iff` — the first two of them are its first `Tie`;
* `ambiguous_iff` — there are two of them exactly when the opcode is `Ambiguous`.
-/

namespace Microcode

open Result

/-! ## counting opcodes -/

namespace Symbol

/-- Whether the bits of a number of the given width may stand in the places of the symbols. -/
def admitsAll (symbols : List Symbol) (width n : Nat) : Bool :=
  (symbols.zipWith admits (Bits.ofNat width n)).all id

@[simp] theorem admitsAll_cons (s : Symbol) (symbols : List Symbol) (width n : Nat) :
    admitsAll (s :: symbols) (width + 1) n =
      (s.admits (n.testBit width) && admitsAll symbols width n) := by
  simp [admitsAll, Bits.ofNat_succ]

theorem admitsAll_two_pow_add (symbols : List Symbol) (width n : Nat) :
    admitsAll symbols width (2 ^ width + n) = admitsAll symbols width n := by
  rw [admitsAll, Bits.ofNat_two_pow_add, admitsAll]

theorem countP_and_left (b : Bool) (q : Nat → Bool) (ns : List Nat) :
    ns.countP (fun n => b && q n) = if b then ns.countP q else 0 := by
  cases b <;> simp

/-- Every wildcard doubles the numbers that symbols admit. -/
theorem countP_admitsAll (symbols : List Symbol) :
    (List.range (2 ^ symbols.length)).countP (admitsAll symbols symbols.length) =
      2 ^ symbols.count .any := by
  induction symbols with
  | nil => rfl
  | cons s symbols ih =>
      -- the numbers whose first bit is clear, and those whose first bit is set
      have hlow : (List.range (2 ^ symbols.length)).countP
          (admitsAll (s :: symbols) (symbols.length + 1)) =
          if s.admits false then 2 ^ symbols.count .any else 0 := by
        rw [← ih, ← countP_and_left]
        refine List.countP_congr fun n hn => ?_
        simp [Nat.testBit_lt_two_pow (List.mem_range.mp hn)]
      have hhigh : ((List.range (2 ^ symbols.length)).map (2 ^ symbols.length + ·)).countP
            (admitsAll (s :: symbols) (symbols.length + 1)) =
          if s.admits true then 2 ^ symbols.count .any else 0 := by
        rw [← ih, ← countP_and_left, List.countP_map]
        refine List.countP_congr fun n hn => ?_
        simp [Nat.testBit_two_pow_add_eq, Nat.testBit_lt_two_pow (List.mem_range.mp hn),
          admitsAll_two_pow_add]
      rw [List.length_cons, Nat.pow_succ, Nat.mul_two, List.range_add, List.countP_append, hlow,
        hhigh, List.count_cons]
      cases s <;> simp [admits, Nat.pow_succ, Nat.mul_two]

end Symbol

namespace PatternText

/-- Matching can be computed place by place. -/
instance (text : List Char) (opcode : UInt8) : Decidable (Matches text opcode) :=
  decidable_of_iff
    (∀ k : Fin text.length,
      (text[k] = '0' → opcode.toNat.testBit (7 - k) = false) ∧
        (text[k] = '1' → opcode.toNat.testBit (7 - k) = true))
    ⟨fun h k c hc => by
      obtain ⟨hk, rfl⟩ := List.getElem?_eq_some_iff.mp hc
      exact h ⟨k, hk⟩,
    fun h k => h k _ (List.getElem?_eq_getElem k.isLt)⟩

/-- The number of opcodes that match a text. -/
def matchCount (text : List Char) : Nat :=
  (List.range 256).countP fun v => decide (Matches text (.ofNat v))

end PatternText

open PatternText

/-- A pattern matches twice as many opcodes for each of its wildcards. -/
theorem OpcodePattern.matchCount_eq (p : OpcodePattern) :
    matchCount p.text.toList = 2 ^ wildcards p.text.toList := by
  have hcount := Symbol.countP_admitsAll p.symbols
  rw [p.length_symbols] at hcount
  rw [← p.cost_eq, cost, ← hcount]
  refine List.countP_congr fun v hv => ?_
  have hlt : v < 256 := List.mem_range.mp hv
  rw [decide_eq_true_iff, ← p.covers_iff, covers, UInt8.toNat_ofNat', Nat.mod_eq_of_lt hlt,
    Symbol.admitsAll]

namespace PatternSet

/-! ## the most specific patterns -/

/-- The pattern matches the opcode, and no registered pattern that does so matches fewer opcodes. -/
def MostSpecific (ps : List OpcodePattern) (opcode : UInt8) (p : OpcodePattern) : Prop :=
  p ∈ ps ∧ Matches p.text.toList opcode ∧
    ∀ q ∈ ps, Matches q.text.toList opcode →
      matchCount p.text.toList ≤ matchCount q.text.toList

instance (ps : List OpcodePattern) (opcode : UInt8) (p : OpcodePattern) :
    Decidable (MostSpecific ps opcode p) := inferInstanceAs (Decidable (_ ∧ _ ∧ _))

/-- The pattern is the earliest of the most specific ones. -/
def Wins (ps : List OpcodePattern) (opcode : UInt8) (p : OpcodePattern) : Prop :=
  ∃ earlier later, ps = earlier ++ p :: later ∧ MostSpecific ps opcode p ∧
    ∀ q ∈ earlier, ¬MostSpecific ps opcode q

/-- The two patterns are the two earliest of the most specific ones. -/
def Tie (ps : List OpcodePattern) (opcode : UInt8) (p q : OpcodePattern) : Prop :=
  ∃ earlier between later, ps = earlier ++ p :: (between ++ q :: later) ∧
    MostSpecific ps opcode p ∧ MostSpecific ps opcode q ∧
      ∀ r ∈ earlier ++ between, ¬MostSpecific ps opcode r

/-- Two patterns are the most specific ones for the opcode. -/
def Ambiguous (ps : List OpcodePattern) (opcode : UInt8) : Prop :=
  ∃ p q, p ≠ q ∧ MostSpecific ps opcode p ∧ MostSpecific ps opcode q

variable {s : PatternSet} {opcode : UInt8}

/-- The cheapest patterns are the most specific ones. -/
theorem mem_cheapest_iff_mostSpecific {p : OpcodePattern} :
    p ∈ s.cheapest opcode ↔ MostSpecific s.patterns opcode p := by
  simp only [mem_cheapest_iff, MostSpecific, OpcodePattern.matchCount_eq,
    Nat.pow_le_pow_iff_right (Nat.lt_succ_self 1)]

/-- The cheapest patterns are the most specific ones, in the order of registration. -/
theorem cheapest_eq_filter (s : PatternSet) (opcode : UInt8) :
    s.cheapest opcode = s.patterns.filter fun p => decide (MostSpecific s.patterns opcode p) := by
  obtain ⟨chosen, hchosen⟩ : ∃ chosen, s.cheapest opcode = s.patterns.filter chosen := by
    unfold cheapest
    simp only
    split
    · exact ⟨fun _ => false, by simp⟩
    · exact ⟨_, List.filter_filter⟩
  rw [hchosen]
  refine List.filter_congr fun p hp => Bool.eq_iff_iff.mpr ?_
  rw [decide_eq_true_iff, ← mem_cheapest_iff_mostSpecific, hchosen, List.mem_filter]
  simp [hp]

/-- There is a most specific pattern for every opcode that some pattern matches. -/
theorem cheapest_eq_nil_iff :
    s.cheapest opcode = [] ↔ ∀ p ∈ s.patterns, ¬Matches p.text.toList opcode := by
  constructor
  · intro hnil p hp hmatch
    unfold cheapest at hnil
    simp only at hnil
    split at hnil
    · next hnone =>
        rw [List.min?_eq_none_iff, List.map_eq_nil_iff, List.filter_eq_nil_iff] at hnone
        exact hnone p hp (p.covers_iff opcode |>.mpr hmatch)
    · next least hleast =>
        obtain ⟨q, hq, hcost⟩ := List.mem_map.mp (List.min?_mem hleast)
        exact List.filter_eq_nil_iff.mp hnil q hq (beq_iff_eq.mpr hcost)
  · intro h
    refine List.eq_nil_iff_forall_not_mem.mpr fun p hp => ?_
    obtain ⟨hmem, hmatch, -⟩ := mem_cheapest_iff_mostSpecific.mp hp
    exact h p hmem hmatch

/-- The first of the cheapest patterns wins. -/
theorem exists_cheapest_eq_cons_iff {p : OpcodePattern} :
    (∃ rest, s.cheapest opcode = p :: rest) ↔ Wins s.patterns opcode p := by
  simp only [cheapest_eq_filter, List.filter_eq_cons_iff, decide_eq_true_iff, Wins]
  constructor
  · rintro ⟨rest, earlier, later, heq, hnone, hp, -⟩
    exact ⟨earlier, later, heq, hp, hnone⟩
  · rintro ⟨earlier, later, heq, hp, hnone⟩
    exact ⟨_, earlier, later, heq, hnone, hp, rfl⟩

/-- The first two of the cheapest patterns are the first tie. -/
theorem exists_cheapest_eq_cons_cons_iff {p q : OpcodePattern} :
    (∃ rest, s.cheapest opcode = p :: q :: rest) ↔ Tie s.patterns opcode p q := by
  simp only [cheapest_eq_filter, List.filter_eq_cons_iff, decide_eq_true_iff, Tie,
    List.forall_mem_append]
  constructor
  · rintro ⟨rest, earlier, _, heq, hearlier, hp, between, later, rfl, hbetween, hq, -⟩
    exact ⟨earlier, between, later, heq, hp, hq, hearlier, hbetween⟩
  · rintro ⟨earlier, between, later, heq, hp, hq, hearlier, hbetween⟩
    exact ⟨_, earlier, _, heq, hearlier, hp, between, later, rfl, hbetween, hq, rfl⟩

/-- An opcode is ambiguous exactly when it has two cheapest patterns, provided that no pattern is
registered twice. -/
theorem ambiguous_iff (hnodup : s.patterns.Nodup) :
    Ambiguous s.patterns opcode ↔ ¬(s.cheapest opcode).length ≤ 1 := by
  have hcheap : (s.cheapest opcode).Nodup := hnodup.sublist (s.cheapest_sublist opcode)
  simp only [Ambiguous, ← mem_cheapest_iff_mostSpecific]
  rcases hlist : s.cheapest opcode with _ | ⟨first, _ | ⟨second, rest⟩⟩
  · simp
  · simp only [List.mem_singleton, List.length_singleton, Nat.le_refl, not_true_eq_false, iff_false]
    rintro ⟨p, q, hne, rfl, rfl⟩
    exact hne rfl
  · rw [hlist, List.nodup_cons] at hcheap
    have hne : first ≠ second := fun heq => hcheap.1 (heq ▸ List.mem_cons_self)
    simp only [List.length_cons, Nat.not_le]
    exact ⟨fun _ => by omega, fun _ => ⟨first, second, hne, by simp, by simp⟩⟩

/-! ## the table -/

/-- For patterns registered one after the other, the decode table gives every opcode the entry of
the earliest of its most specific patterns.  When ties are refused, it is refused exactly when some
opcode is ambiguous, for the first tie of the smallest such opcode. -/
theorem decodeTable_mostSpecific {ps : List OpcodePattern} {s : PatternSet}
    (h : ps.foldlM register {} = .ok s) :
    (∃ t, s.decodeTable .first = .ok t ∧ ∀ opcode,
      (t.get? opcode = none ↔ ∀ p ∈ ps, ¬Matches p.text.toList opcode) ∧
        ∀ entry, t.get? opcode = some entry ↔ ∃ p, Wins ps opcode p ∧ p.entry = entry) ∧
      ((∃ a, s.decodeTable .reject = .error a) ↔ ∃ opcode, Ambiguous ps opcode) ∧
        (∀ a, s.decodeTable .reject = .error a →
          Ambiguous ps a.opcode ∧ (∀ opcode < a.opcode, ¬Ambiguous ps opcode) ∧
            Tie ps a.opcode a.first a.second) ∧
          ((∀ opcode, ¬Ambiguous ps opcode) → s.decodeTable .reject = s.decodeTable .first) := by
  obtain ⟨hs, -, htexts⟩ := foldlM_register_eq_ok_iff.mp h
  obtain rfl : s.patterns = ps := by rw [hs]; rfl
  have hnodup : s.patterns.Nodup := htexts.imp fun hne heq => hne (congrArg _ heq)
  have hambiguous : ∀ a, s.decodeTable .reject = .error a → Ambiguous s.patterns a.opcode ∧
      (∀ opcode < a.opcode, ¬Ambiguous s.patterns opcode) ∧
        Tie s.patterns a.opcode a.first a.second := by
    intro a ha
    obtain ⟨-, hties, hbefore⟩ := decodeTable_eq_error_iff.mp ha
    refine ⟨?_, fun opcode hlt => ?_, exists_cheapest_eq_cons_cons_iff.mp hties⟩
    · obtain ⟨rest, hcheap⟩ := hties
      simp [ambiguous_iff hnodup, hcheap]
    · rw [ambiguous_iff hnodup, Decidable.not_not]
      exact hbefore opcode hlt
  have haccepted : (∀ opcode, ¬Ambiguous s.patterns opcode) ↔
      ∀ opcode, (s.cheapest opcode).length ≤ 1 := by
    simp only [ambiguous_iff hnodup, Decidable.not_not]
  refine ⟨?_, ⟨fun ⟨a, ha⟩ => ⟨a.opcode, (hambiguous a ha).1⟩, ?_⟩, hambiguous, fun hnone => ?_⟩
  · obtain ⟨t, ht⟩ : ∃ t, s.decodeTable .first = .ok t :=
      exists_decodeTable_iff.mpr fun h => (nomatch h)
    refine ⟨t, ht, fun opcode => ⟨?_, fun entry => ?_⟩⟩
    · rw [get?_of_decodeTable ht, entry?, Option.map_eq_none_iff, List.head?_eq_none_iff,
        cheapest_eq_nil_iff]
    · simp only [get?_of_decodeTable ht, entry?, Option.map_eq_some_iff, List.head?_eq_some_iff,
        exists_cheapest_eq_cons_iff]
  · rintro ⟨opcode, hopcode⟩
    rcases ok_or_error (s.decodeTable .reject) with ⟨t, ht⟩ | herror
    · exact absurd hopcode (haccepted.mpr ((decodeTable_eq_ok_iff.mp ht).1 rfl) opcode)
    · exact herror
  · have hsingle := haccepted.mp hnone
    obtain ⟨t, ht⟩ : ∃ t, s.decodeTable .reject = .ok t :=
      exists_decodeTable_iff.mpr fun _ => hsingle
    have hentries := (decodeTable_eq_ok_iff.mp ht).2
    rw [ht, decodeTable_eq_ok_iff.mpr ⟨fun _ => hsingle, hentries⟩]

/-- Three patterns, of which the first two tie for opcode 0 and the third is the most specific one
for opcode 1. -/
def overlapping : List OpcodePattern :=
  [⟨"0000----", 5, 1, by decide⟩, ⟨"-0-0-0-0", 6, 2, by decide⟩, ⟨"00000001", 7, 3, by decide⟩]

/-- The first pattern decodes opcode 0 unless ties are refused, and the third one opcode 1. -/
theorem decodeTable_mostSpecific_overlapping :
    ∃ s, overlapping.foldlM register {} = .ok s ∧
      (∃ t, s.decodeTable .first = .ok t ∧ t.get? 0 = some 5 ∧ t.get? 1 = some 7) ∧
        ∃ a, s.decodeTable .reject = .error a ∧ a.opcode = 0 := by
  obtain ⟨s, hs⟩ : ∃ s, overlapping.foldlM register {} = .ok s := ⟨_, rfl⟩
  obtain ⟨⟨t, ht, hentries⟩, hrefused, hsmallest, -⟩ := decodeTable_mostSpecific hs
  have hmost : ∀ opcode p, MostSpecific overlapping opcode p ↔ p ∈ cheapest ⟨overlapping⟩ opcode :=
    fun _ _ => mem_cheapest_iff_mostSpecific.symm
  simp only [Wins, Ambiguous, hmost] at hentries hrefused hsmallest
  have hzero : t.get? 0 = some 5 := ((hentries 0).2 5).mpr
    ⟨_, ⟨[], overlapping.tail, rfl, by decide +kernel, by simp⟩, rfl⟩
  have hone : t.get? 1 = some 7 := ((hentries 1).2 7).mpr
    ⟨_, ⟨overlapping.take 2, [], rfl, by decide +kernel, by decide +kernel⟩, rfl⟩
  have htie : ∃ p q, p ≠ q ∧ p ∈ cheapest ⟨overlapping⟩ 0 ∧ q ∈ cheapest ⟨overlapping⟩ 0 :=
    ⟨overlapping[0], overlapping[1], by decide, by decide +kernel, by decide +kernel⟩
  obtain ⟨a, ha⟩ := hrefused.mpr ⟨0, htie⟩
  refine ⟨s, hs, ⟨t, ht, hzero, hone⟩, a, ha, ?_⟩
  -- no ambiguous opcode is smaller than the reported one, and 0 is ambiguous
  by_cases hopcode : a.opcode = 0
  · exact hopcode
  · exact absurd htie ((hsmallest a ha).2.1 0 (UInt8.pos_iff_ne_zero.mpr hopcode))

end PatternSet

end Microcode
