import Microcode.Proofs.Assembly.Outcome
import Microcode.Proofs.Flow.Report
import Mathlib.Data.List.Perm.Subperm

/-!
# Microcode.Proofs.Flow.Contained

The control flow of an assembled source stays in its own words and one word of padding.

A control store is `Contained` up to an address when no jump leads past it, and when control does
not run past it either.  This is all that a walk needs (`Contained.closed`), and the report starts
its walk at addresses that jumps lead to (`exists_jump_of_mem_entries`).  An assembled source is
contained up to the address after its last word (`Draft.Reads.contained`): labels and opcodes stand for
addresses up to there, and the padding that follows ends every sequence.
-/

namespace Microcode

open Result Source

namespace Program

/-! ## contained control flow -/

/-- No jump leads past address `n`, and the word there ends its sequence unless it is the last one
of the code. -/
structure Contained (p : Program) (n : Nat) : Prop where
  jumps_le : ∀ a w target, p.get? a = some w → w.jumpTarget? = some target → target ≤ n
  ends : n + 1 < decodeBase →
    ∃ w, p.get? n = some w ∧ w.jumpKind? = none ∧ w.endsSequence = true

namespace Contained

variable {p : Program} {n : Nat} {seeds : List Nat}

/-- Control does not run past the bound. -/
theorem step_le (h : p.Contained n) {e : Edge} (he : p.Step e) (hsource : e.source ≤ n) :
    e.target ≤ n := by
  cases he with
  | jump _ hw _ htarget => exact h.jumps_le _ _ _ hw htarget
  | @afterJump pc w kind hw hkind hnext =>
      rcases Nat.lt_or_eq_of_le hsource with hlt | rfl
      · exact hlt
      · obtain ⟨w', hw', hplain, -⟩ := h.ends hnext
        simp_all
  | @next pc w hw _ hhalt hend hreturn hnext =>
      rcases Nat.lt_or_eq_of_le hsource with hlt | rfl
      · exact hlt
      · obtain ⟨w', hw', -, hends⟩ := h.ends hnext
        obtain rfl : w = w' := Option.some.inj (hw.symm.trans hw')
        have hgoes := MicroWord.endsSequence_eq_false_iff.mpr ⟨hhalt, hend, hreturn⟩
        simp [hends] at hgoes

theorem closed (h : p.Contained n) (hseeds : ∀ a ∈ seeds, a < decodeBase → a ≤ n) :
    p.Closed seeds {a | a ≤ n} :=
  ⟨hseeds, fun _ he => h.step_le he⟩

/-- A walk that starts below the bound stays there. -/
theorem walk_le (h : p.Contained n) (hseeds : ∀ a ∈ seeds, a < decodeBase → a ≤ n) :
    (∀ a ∈ (p.walk seeds).visited, a ≤ n) ∧ ∀ e ∈ (p.walk seeds).edges, e.target ≤ n := by
  have hvisited : ∀ a ∈ (p.walk seeds).visited, a ≤ n := fun a ha =>
    visited_subset (h.closed hseeds) ha
  refine ⟨hvisited, fun e he => ?_⟩
  obtain ⟨hstep, hsource⟩ := mem_edges_walk_iff.mp he
  exact h.step_le hstep (hvisited _ hsource)

/-- Such a walk visits no more addresses than there are. -/
theorem length_visited_le (h : p.Contained n) (hseeds : ∀ a ∈ seeds, a < decodeBase → a ≤ n) :
    (p.walk seeds).visited.length ≤ n + 1 := by
  have hsubset : (p.walk seeds).visited ⊆ List.range (n + 1) := fun a ha =>
    List.mem_range.mpr (Nat.lt_succ_of_le ((h.walk_le hseeds).1 a ha))
  have hle := (List.subperm_of_subset (nodup_visited p seeds) hsubset).length_le
  rwa [List.length_range] at hle

end Contained

/-! ## where the report starts -/

/-- Every entry point is the target of a jump in the decode table. -/
theorem exists_jump_of_mem_entries {p : Program} {entry : EntryPoint}
    (h : entry ∈ p.grouping.entries) :
    ∃ a w, p.get? a = some w ∧ w.jumpTarget? = some entry.address := by
  obtain ⟨opcode, hentry⟩ := exists_opcode_of_mem_entries h
  obtain ⟨w, hw, -, htarget, -⟩ := decodeEntries_eq_some_iff.mp hentry
  exact ⟨_, w, hw, htarget⟩

/-- The report starts at address 0 and where the decode table leads to. -/
theorem Contained.report_seeds_le {p : Program} {n : Nat} (h : p.Contained n) :
    ∀ a ∈ 0 :: p.report.entries.map (·.address), a < decodeBase → a ≤ n := by
  intro a ha _
  rcases List.mem_cons.mp ha with rfl | ha
  · exact Nat.zero_le n
  · obtain ⟨entry, hentry, rfl⟩ := List.mem_map.mp ha
    obtain ⟨address, w, hw, htarget⟩ := exists_jump_of_mem_entries hentry
    exact h.jumps_le address w _ hw htarget

/-! ## assembled sources -/

/-- The padding word is plain and ends its sequence. -/
theorem paddingWord_ends : paddingWord.jumpKind? = none ∧ paddingWord.endsSequence = true := by
  decide

/-- The word of an opcode without entry calls address 0. -/
theorem jumpTarget?_unmatchedWord : DecodeTable.unmatchedWord.jumpTarget? = some 0 := by
  decide

end Program

namespace Draft

variable {d : Draft} {config : Config} {lines : List String} {asm : Assembly}

/-- No opcode is decoded past the end of the words. -/
theorem Reads.entry_le (hd : d.Reads lines) (h : d.finish config lines = .ok asm) {opcode : UInt8}
    {entry : UInt16} (hentry : asm.decode.get? opcode = some entry) :
    entry.toNat ≤ asm.authored := by
  obtain ⟨hfits, code, decode, decodeWords, -, hdecode, _, rfl⟩ := finish_eq_ok_iff.mp h
  rw [hd.size_slots] at hfits
  obtain ⟨i, -, rfl⟩ := (hd.get?_decodeTable_eq_some_iff hdecode).mp hentry
  rw [toNat_ofNat_addressAt hfits, assembly, hd.size_slots]
  exact addressAt_le lines i

/-- No jump leads past the end of the words. -/
theorem Reads.jump_le (hd : d.Reads lines) (hwf : WellFormed lines)
    (h : d.finish config lines = .ok asm) {a target : Nat} {w : MicroWord}
    (hw : asm.program.get? a = some w) (htarget : w.jumpTarget? = some target) :
    target ≤ asm.authored := by
  have hlayout := hd.layout hwf h
  obtain ⟨kind, hkind⟩ := MicroWord.exists_jumpKind?_of_jumpTarget? htarget
  by_cases hcode : a < asm.authored
  · -- a word of the source: its line is a jump, and goes to the line of its label
    obtain ⟨i, line, w', hi, -, rfl, -, hw', hjump⟩ := hlayout.line_of a hcode
    obtain rfl : w = w' := Option.some.inj (hw.symm.trans hw')
    obtain ⟨kind', label, rfl⟩ := hjump.mp (by simp [hkind])
    obtain ⟨j, w', -, -, hmade, hw'⟩ := hlayout.jump_at i kind' label hi
    obtain rfl : w = w' := Option.some.inj (hw.symm.trans hw')
    have htarget' := (MicroWord.jumpTarget?_of_jump hmade).1
    rw [Option.some.inj (htarget.symm.trans htarget'), hlayout.authored]
    exact addressAt_le lines j
  · by_cases hpad : a < 256
    · have hpadding := hlayout.padding a (Nat.le_of_not_lt hcode) hpad
      obtain rfl := Option.some.inj (hw.symm.trans hpadding)
      simp [Program.paddingWord_ends.1] at hkind
    · -- a word of the decode table
      have hlt : a < 512 := by
        rw [← asm.program.length_words]
        exact (List.getElem?_eq_some_iff.mp hw).1
      have haddress : a = Program.decodeBase + (UInt8.ofNat (a - 256)).toNat := by
        simp only [Program.decodeBase, UInt8.toNat_ofNat']
        omega
      rw [haddress] at hw
      cases hentry : asm.decode.get? (.ofNat (a - 256)) with
      | none =>
          rw [hlayout.unmatched _ hentry, Option.some.injEq] at hw
          rw [← hw, Program.jumpTarget?_unmatchedWord, Option.some.injEq] at htarget
          omega
      | some entry =>
          obtain ⟨w', hmade, hw'⟩ := hlayout.matched _ entry hentry
          obtain rfl : w = w' := Option.some.inj (hw.symm.trans hw')
          have htarget' := (MicroWord.jumpTarget?_of_jump hmade).1
          rw [Option.some.inj (htarget.symm.trans htarget')]
          exact hd.entry_le h hentry

/-- An assembled source is contained up to the address after its last word. -/
theorem Reads.contained (hd : d.Reads lines) (hwf : WellFormed lines)
    (h : d.finish config lines = .ok asm) : asm.program.Contained (min asm.authored 255) where
  jumps_le := fun a w target hw htarget => by
    have hle := hd.jump_le hwf h hw htarget
    have hlt := MicroWord.jumpTarget?_lt htarget
    omega
  ends := fun hlt => by
    have hmin : min asm.authored 255 = asm.authored := by
      simp only [Program.decodeBase] at hlt
      omega
    rw [hmin] at hlt ⊢
    exact ⟨_, (hd.layout hwf h).padding _ (Nat.le_refl _) (Nat.lt_of_succ_lt hlt),
      Program.paddingWord_ends⟩

end Draft

/-- In an assembled source no jump, no walk from its own addresses and no report gets further than
the address after the last word. -/
theorem assemble_flow_le {config : Config} {source : String} {asm : Assembly}
    (h : assemble config source = .ok asm) :
    (∀ a w target, asm.program.get? a = some w → w.jumpTarget? = some target →
      target ≤ min asm.authored 255) ∧
      (∀ seeds, (∀ a ∈ seeds, a ≤ asm.authored) →
        (∀ a ∈ (asm.program.walk seeds).visited, a ≤ min asm.authored 255) ∧
          ∀ e ∈ (asm.program.walk seeds).edges, e.target ≤ min asm.authored 255) ∧
        (∀ a ∈ (asm.program.walk (0 :: asm.program.report.entries.map (·.address))).visited,
          a ≤ min asm.authored 255) ∧
          (∀ e ∈ asm.program.report.edges, e.target ≤ min asm.authored 255) ∧
            asm.program.report.reachable ≤ asm.authored + 1 := by
  obtain ⟨d, hd, hfinish⟩ := bind_eq_ok_iff.mp h
  have hcontained := (Draft.reads_of_ofLines hd).contained
    (Draft.exists_ofLines_iff.mp ⟨d, hd⟩) hfinish
  have hreport := hcontained.walk_le hcontained.report_seeds_le
  refine ⟨hcontained.jumps_le, fun seeds hseeds => ?_, hreport.1, hreport.2, ?_⟩
  · refine hcontained.walk_le fun a ha hlt => ?_
    have hle := hseeds a ha
    simp only [Program.decodeBase] at hlt
    omega
  · have hlength : asm.program.report.reachable ≤ min asm.authored 255 + 1 :=
      hcontained.length_visited_le hcontained.report_seeds_le
    omega

/-- A call of a label at the end reaches the word of padding there, and no more than that. -/
theorem assemble_flow_le_label_at_end :
    ∃ asm, assemble {} "__code \"0000---1\"\nJSR end\nNOP\n:end\n" = .ok asm ∧
      asm.authored = 2 ∧ (asm.program.walk [0]).visited = [0, 1, 2] ∧
        (∀ a ∈ (asm.program.walk [0]).visited, a ≤ min asm.authored 255) ∧
          asm.program.report.reachable ≤ 3 := by
  have hrun : (assemble {} "__code \"0000---1\"\nJSR end\nNOP\n:end\n").map
      (fun asm => (asm.authored, (asm.program.walk [0]).visited)) = .ok (2, [0, 1, 2]) := by
    decide +kernel
  obtain ⟨asm, h, hasm⟩ := map_eq_ok_iff.mp hrun
  obtain ⟨hauthored, hvisited⟩ := Prod.mk.inj hasm
  obtain ⟨-, hwalk, -, -, hreachable⟩ := assemble_flow_le h
  rw [hauthored] at hreachable
  exact ⟨asm, h, hauthored, hvisited, (hwalk [0] (by simp)).1, hreachable⟩

end Microcode
