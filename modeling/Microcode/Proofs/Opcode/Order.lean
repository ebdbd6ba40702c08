import Microcode.Proofs.Opcode.Specificity

/-!
# Microcode.Proofs.Opcode.Order

The order in which patterns are registered matters for ties only.

Whether a pattern is among the cheapest for an opcode does not depend on where it stands, so another
order of the same patterns has the same cheapest ones in another order (`cheapest_perm`).  Refusing
ties looks only at how many they are, and takes the only one there is (`decodeTable_reject_perm`).
Keeping the first one can take another pattern, but always one of the same cost
(`map_cost_head?_cheapest`).
-/

namespace Microcode.PatternSet

open Result

variable {ps ps' : List OpcodePattern} {opcode : UInt8} {p : OpcodePattern}

/-- The pattern matches the opcode, and no pattern that does so costs less. -/
def LeastCost (ps : List OpcodePattern) (opcode : UInt8) (p : OpcodePattern) : Prop :=
  p ∈ ps ∧ p.covers opcode = true ∧ ∀ q ∈ ps, q.covers opcode = true → p.cost ≤ q.cost

/-- The cheapest patterns are those of least cost. -/
theorem mem_cheapest_iff_leastCost : p ∈ cheapest ⟨ps⟩ opcode ↔ LeastCost ps opcode p := by
  simp only [mem_cheapest_iff, LeastCost, OpcodePattern.covers_iff, OpcodePattern.cost_eq]

/-- All patterns of least cost cost the same. -/
theorem LeastCost.cost_eq {q : OpcodePattern} (hp : LeastCost ps opcode p)
    (hq : LeastCost ps opcode q) : p.cost = q.cost :=
  Nat.le_antisymm (hp.2.2 q hq.1 hq.2.1) (hq.2.2 p hp.1 hp.2.1)

/-! ## another order -/

/-- Which patterns are the most specific ones does not depend on their order. -/
theorem mostSpecific_perm (h : ps.Perm ps') :
    MostSpecific ps opcode p ↔ MostSpecific ps' opcode p := by
  simp only [MostSpecific, h.mem_iff]

/-- Another order of the patterns gives the same cheapest ones, in another order. -/
theorem cheapest_perm (h : ps.Perm ps') (opcode : UInt8) :
    (cheapest ⟨ps⟩ opcode).Perm (cheapest ⟨ps'⟩ opcode) := by
  simp only [cheapest_eq_filter, mostSpecific_perm h]
  exact h.filter _

/-- A single cheapest pattern is the same one in any order. -/
theorem cheapest_eq_of_length_le (h : ps.Perm ps') (hlen : (cheapest ⟨ps⟩ opcode).length ≤ 1) :
    cheapest ⟨ps'⟩ opcode = cheapest ⟨ps⟩ opcode := by
  have hperm := (cheapest_perm h opcode).symm
  rcases hcheap : cheapest ⟨ps⟩ opcode with _ | ⟨first, _ | ⟨second, rest⟩⟩
  · rw [hcheap] at hperm
    exact hperm.eq_nil
  · rw [hcheap] at hperm
    exact hperm.eq_singleton
  · simp [hcheap] at hlen

/-- A refusal names the smallest opcode that has two cheapest patterns, and another order of the
patterns has no smaller one. -/
theorem opcode_le_of_perm (h : ps.Perm ps') {a a' : Ambiguity}
    (ha : decodeTable ⟨ps⟩ .reject = .error a) (ha' : decodeTable ⟨ps'⟩ .reject = .error a') :
    a.opcode ≤ a'.opcode := by
  obtain ⟨-, -, hbefore⟩ := decodeTable_eq_error_iff.mp ha
  obtain ⟨-, ⟨rest, hcheap⟩, -⟩ := decodeTable_eq_error_iff.mp ha'
  refine UInt8.not_lt.mp fun hlt => ?_
  have hsingle := hbefore _ hlt
  rw [(cheapest_perm h a'.opcode).length_eq, hcheap] at hsingle
  simp at hsingle

/-- A table that is finished in one order is the same in any other. -/
theorem decodeTable_eq_ok_of_perm (h : ps.Perm ps') {t : DecodeTable}
    (ht : decodeTable ⟨ps⟩ .reject = .ok t) : decodeTable ⟨ps'⟩ .reject = .ok t := by
  obtain ⟨hsingle, hentries⟩ := decodeTable_eq_ok_iff.mp ht
  refine decodeTable_eq_ok_iff.mpr ⟨fun hreject opcode => ?_, ?_⟩
  · rw [← (cheapest_perm h opcode).length_eq]
    exact hsingle hreject opcode
  · simp only [hentries, entry?, cheapest_eq_of_length_le h (hsingle rfl _)]

/-- When ties are refused, another order gives the same table, or a refusal for the same opcode. -/
theorem decodeTable_reject_perm (h : ps.Perm ps') :
    Related (fun a a' => a.opcode = a'.opcode) (· = ·) (decodeTable ⟨ps⟩ .reject)
      (decodeTable ⟨ps'⟩ .reject) := by
  rcases ok_or_error (decodeTable ⟨ps⟩ .reject) with ⟨t, ht⟩ | ⟨a, ha⟩
  · rw [ht, decodeTable_eq_ok_of_perm h ht]
    exact .ok rfl
  · rcases ok_or_error (decodeTable ⟨ps'⟩ .reject) with ⟨t', ht'⟩ | ⟨a', ha'⟩
    · have ht := decodeTable_eq_ok_of_perm h.symm ht'
      rw [ha] at ht
      contradiction
    · rw [ha, ha']
      exact .error (UInt8.le_antisymm (opcode_le_of_perm h ha ha') (opcode_le_of_perm h.symm ha' ha))

/-- The first of the cheapest patterns costs the same in any order. -/
theorem map_cost_head?_cheapest (h : ps.Perm ps') (opcode : UInt8) :
    (cheapest ⟨ps⟩ opcode).head?.map (·.cost) = (cheapest ⟨ps'⟩ opcode).head?.map (·.cost) := by
  have hperm := cheapest_perm h opcode
  rcases hcheap : cheapest ⟨ps⟩ opcode with _ | ⟨first, rest⟩
  · rw [hcheap] at hperm
    rw [hperm.symm.eq_nil]
  · rcases hcheap' : cheapest ⟨ps'⟩ opcode with _ | ⟨first', rest'⟩
    · rw [hcheap, hcheap'] at hperm
      exact absurd hperm.eq_nil (List.cons_ne_nil _ _)
    · have hfirst : LeastCost ps opcode first := mem_cheapest_iff_leastCost.mp (by simp [hcheap])
      have hfirst' : LeastCost ps opcode first' :=
        mem_cheapest_iff_leastCost.mp (hperm.mem_iff.mpr (by simp [hcheap']))
      exact congrArg some (hfirst.cost_eq hfirst')

/-- A pattern that alone has the least cost is the first of the cheapest. -/
theorem head?_cheapest_of_unique (hp : LeastCost ps opcode p)
    (hunique : ∀ q, LeastCost ps opcode q → q = p) : (cheapest ⟨ps⟩ opcode).head? = some p := by
  rcases hcheap : cheapest ⟨ps⟩ opcode with _ | ⟨first, rest⟩
  · have hmem := mem_cheapest_iff_leastCost.mpr hp
    rw [hcheap] at hmem
    exact absurd hmem List.not_mem_nil
  · rw [List.head?_cons, hunique first (mem_cheapest_iff_leastCost.mp (by simp [hcheap]))]

theorem leastCost_perm (h : ps.Perm ps') : LeastCost ps opcode p ↔ LeastCost ps' opcode p := by
  simp only [LeastCost, h.mem_iff]

/-! ## registration -/

/-- Patterns of different texts can be registered in any order.  When ties are refused, the order does
not matter for the table, or for the opcode that it is refused for.  When the first pattern is kept,
every opcode is decoded by a pattern of the same cost, or by none, and by the same pattern if only
one has the least cost. -/
theorem foldlM_register_perm (hperm : ps.Perm ps')
    (htexts : ps.Pairwise fun p q => p.text ≠ q.text) :
    ∃ s s', ps.foldlM register {} = .ok s ∧ ps'.foldlM register {} = .ok s' ∧
      Related (fun a a' => a.opcode = a'.opcode) (· = ·) (s.decodeTable .reject)
        (s'.decodeTable .reject) ∧
      ∀ opcode, ∃ found found', s.bestMatch opcode .first = .ok found ∧
        s'.bestMatch opcode .first = .ok found' ∧ found.map (·.cost) = found'.map (·.cost) ∧
          ∀ p, LeastCost ps opcode p → (∀ q, LeastCost ps opcode q → q = p) →
            found = some p ∧ found' = some p := by
  have htexts' : ps'.Pairwise fun p q => p.text ≠ q.text :=
    (hperm.pairwise_iff Ne.symm).mp htexts
  have hregister : ∀ {ps : List OpcodePattern}, (ps.Pairwise fun p q => p.text ≠ q.text) →
      ps.foldlM register {} = .ok ⟨ps⟩ := fun h =>
    foldlM_register_eq_ok_iff.mpr ⟨rfl, by simp, h⟩
  have hfirst : ∀ (s : PatternSet) opcode,
      s.bestMatch opcode .first = .ok (s.cheapest opcode).head? := fun s opcode =>
    bestMatch_eq_ok_iff.mpr ⟨nofun, rfl⟩
  refine ⟨⟨ps⟩, ⟨ps'⟩, hregister htexts, hregister htexts', decodeTable_reject_perm hperm, ?_⟩
  refine fun opcode => ⟨_, _, hfirst _ opcode, hfirst _ opcode, map_cost_head?_cheapest hperm opcode,
    fun p hp hunique => ⟨head?_cheapest_of_unique hp hunique, ?_⟩⟩
  simp only [leastCost_perm hperm] at hp hunique
  exact head?_cheapest_of_unique hp hunique

/-- Registered in the opposite order, the tied patterns for opcode 0 are refused as before, the other
one of them is kept for it, and opcode 1 is still decoded by the third pattern. -/
theorem foldlM_register_perm_overlapping :
    ∃ s s', overlapping.foldlM register {} = .ok s ∧
      overlapping.reverse.foldlM register {} = .ok s' ∧
      Related (fun a a' => a.opcode = a'.opcode) (· = ·) (s.decodeTable .reject)
        (s'.decodeTable .reject) ∧
      (∃ p p', s.bestMatch 0 .first = .ok (some p) ∧ s'.bestMatch 0 .first = .ok (some p') ∧
        p ≠ p' ∧ p.cost = p'.cost) ∧
      ∃ p, s.bestMatch 1 .first = .ok (some p) ∧ s'.bestMatch 1 .first = .ok (some p) := by
  obtain ⟨s, s', hs, hs', hreject, hfirst⟩ :=
    foldlM_register_perm (List.reverse_perm overlapping).symm (by decide)
  obtain rfl : s = ⟨overlapping⟩ := Except.ok.inj (hs.symm.trans rfl)
  obtain rfl : s' = ⟨overlapping.reverse⟩ := Except.ok.inj (hs'.symm.trans rfl)
  refine ⟨_, _, hs, hs', hreject, ?_, ?_⟩
  · obtain ⟨found, found', hfound, hfound', hcost, -⟩ := hfirst 0
    have hkept : bestMatch ⟨overlapping⟩ 0 .first = .ok (some overlapping[0]) := by decide +kernel
    have hkept' : bestMatch ⟨overlapping.reverse⟩ 0 .first = .ok (some overlapping[1]) := by
      decide +kernel
    rw [hkept] at hfound
    rw [hkept'] at hfound'
    rw [← Except.ok.inj hfound, ← Except.ok.inj hfound'] at hcost
    exact ⟨_, _, hkept, hkept', by decide, Option.some.inj hcost⟩
  · obtain ⟨found, found', hfound, hfound', -, hunique⟩ := hfirst 1
    have hcheap : cheapest ⟨overlapping⟩ 1 = [overlapping[2]] := by decide +kernel
    have hleast : ∀ p, LeastCost overlapping 1 p ↔ p = overlapping[2] := fun p => by
      rw [← mem_cheapest_iff_leastCost, hcheap, List.mem_singleton]
    obtain ⟨rfl, rfl⟩ := hunique overlapping[2] ((hleast _).mpr rfl) fun q => (hleast q).mp
    exact ⟨_, hfound, hfound'⟩

end Microcode.PatternSet
