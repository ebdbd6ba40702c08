import Microcode.Flow.Report
import Microcode.Proofs.Flow.DecodeEntries
import Microcode.Proofs.Flow.Walk
import Mathlib.Data.Set.Card
import Mathlib.Logic.Relation

/-!
# Microcode.Proofs.Flow.Report

The report of a control store sorts the opcodes by their entries.

The opcodes are gone through once, and each is added where its entry says.  What has been gone
through is sorted at every step (`Grouping.Sorts.add`), so each opcode is listed under its entry
(`mem_opcodesWith_iff`), and the lists of the entry points and the list of the opcodes without entry
have every opcode exactly once (`perm_opcodes`).  The addresses that the report counts are those
that control can get to from address 0 and the entry points, step by step
(`mem_visited_iff_reaches`).
-/

namespace Microcode

/-! ## going through the opcodes -/

namespace EntryPoint

variable {address opcode : Nat} {es : List EntryPoint}

/-- Adding an opcode changes the entry point of its address, or makes it, and keeps all others. -/
theorem mem_insert (h : es.Pairwise fun a b => a.address < b.address) {e : EntryPoint} :
    e ∈ insert address opcode es ↔
      e ∈ es ∧ e.address ≠ address ∨
        e.address = address ∧
          ((∃ old ∈ es, old.address = address ∧ e.opcodes = old.opcodes ++ [opcode]) ∨
            (∀ old ∈ es, old.address ≠ address) ∧ e.opcodes = [opcode]) := by
  obtain ⟨a, opcodes⟩ := e
  induction es with
  | nil => simp [insert]
  | cons first es ih =>
      obtain ⟨hfirst, hrest⟩ := List.pairwise_cons.mp h
      rw [insert]
      split_ifs with hlt heq
      · -- the address is smaller than all others
        have hnew : ∀ old ∈ first :: es, old.address ≠ address := by
          rw [List.forall_mem_cons]
          exact ⟨by omega, fun old hold => by have := hfirst old hold; omega⟩
        grind
      · have hnew : ∀ old ∈ es, old.address ≠ address := fun old hold => by
          have := hfirst old hold
          omega
        grind
      · rw [List.mem_cons, ih hrest]
        grind

/-- Adding an opcode keeps the entry points in order. -/
theorem pairwise_insert (h : es.Pairwise fun a b => a.address < b.address) :
    (insert address opcode es).Pairwise fun a b => a.address < b.address := by
  induction es with
  | nil => simp [insert]
  | cons first es ih =>
      obtain ⟨hfirst, hrest⟩ := List.pairwise_cons.mp h
      rw [insert]
      split_ifs with hlt heq
      · refine h.cons fun e he => ?_
        rcases List.mem_cons.mp he with rfl | he
        · exact hlt
        · exact Nat.lt_trans hlt (hfirst e he)
      · exact hrest.cons fun e he => heq ▸ hfirst e he
      · refine (ih hrest).cons fun e he => ?_
        rcases (mem_insert hrest).mp he with ⟨he, -⟩ | ⟨he, -⟩
        · exact hfirst e he
        · omega

end EntryPoint

/-- The opcodes with the given entry, out of several opcodes with their entries. -/
def opcodesIn (xs : List (Option Nat × Nat)) (entry : Option Nat) : List Nat :=
  (xs.filter (·.1 == entry)).map (·.2)

theorem opcodesIn_concat (xs : List (Option Nat × Nat)) (x : Option Nat × Nat)
    (entry : Option Nat) :
    opcodesIn (xs ++ [x]) entry = opcodesIn xs entry ++ if x.1 = entry then [x.2] else [] := by
  by_cases h : x.1 = entry <;> simp [opcodesIn, h]

namespace Grouping

/-- A grouping has each of several opcodes under its entry, in the order in which they were gone
through, and the entries in ascending order. -/
structure Sorts (g : Grouping) (xs : List (Option Nat × Nat)) : Prop where
  ascending : g.entries.Pairwise fun a b => a.address < b.address
  mem_entries_iff : ∀ e, e ∈ g.entries ↔
    e.opcodes = opcodesIn xs (some e.address) ∧ e.opcodes ≠ []
  unmatched : g.unmatched = opcodesIn xs none

variable {g : Grouping} {xs : List (Option Nat × Nat)}

/-- An address without an entry point is the entry of no opcode so far. -/
theorem Sorts.opcodesIn_eq_nil (h : g.Sorts xs) {address : Nat}
    (hnone : ∀ old ∈ g.entries, old.address ≠ address) : opcodesIn xs (some address) = [] := by
  by_contra hne
  exact hnone ⟨address, _⟩ ((h.mem_entries_iff _).mpr ⟨rfl, hne⟩) rfl

/-- With an opcode added, every entry point again has the opcodes of its address. -/
theorem Sorts.mem_insert_iff (h : g.Sorts xs) {address opcode : Nat} {e : EntryPoint} :
    e ∈ EntryPoint.insert address opcode g.entries ↔
      e.opcodes = opcodesIn (xs ++ [(some address, opcode)]) (some e.address) ∧
        e.opcodes ≠ [] := by
  rw [EntryPoint.mem_insert h.ascending, opcodesIn_concat]
  by_cases haddress : e.address = address
  · obtain rfl := haddress
    simp only [ne_eq, not_true_eq_false, and_false, true_and, false_or, if_true]
    constructor
    · rintro (⟨old, hmem, hold, hopcodes⟩ | ⟨hnone, hopcodes⟩)
      · rw [hopcodes, ((h.mem_entries_iff old).mp hmem).1, hold]
        exact ⟨rfl, by simp⟩
      · rw [hopcodes, h.opcodesIn_eq_nil hnone]
        exact ⟨rfl, by simp⟩
    · rintro ⟨hopcodes, -⟩
      by_cases hempty : opcodesIn xs (some e.address) = []
      · refine .inr ⟨fun old hmem hold => ?_, by rw [hopcodes, hempty]; rfl⟩
        obtain ⟨hprior, hne⟩ := (h.mem_entries_iff old).mp hmem
        rw [hold, hempty] at hprior
        exact hne hprior
      · exact .inl ⟨⟨e.address, _⟩, (h.mem_entries_iff _).mpr ⟨rfl, hempty⟩, rfl, hopcodes⟩
  · have hne : ¬(some address : Option Nat) = some e.address := by simpa [eq_comm] using haddress
    simp [haddress, hne, h.mem_entries_iff]

/-- An opcode is added where its entry says. -/
theorem Sorts.add (h : g.Sorts xs) (x : Option Nat × Nat) : (g.add x).Sorts (xs ++ [x]) := by
  obtain ⟨_ | address, opcode⟩ := x
  · exact
      { ascending := h.ascending
        mem_entries_iff := fun e => by
          simpa [Grouping.add, opcodesIn_concat] using h.mem_entries_iff e
        unmatched := by simp [Grouping.add, opcodesIn_concat, h.unmatched] }
  · exact
      { ascending := EntryPoint.pairwise_insert h.ascending
        mem_entries_iff := fun _ => h.mem_insert_iff
        unmatched := by simp [Grouping.add, opcodesIn_concat, h.unmatched] }

/-- Going through opcodes sorts them. -/
theorem sorts_foldl (xs : List (Option Nat × Nat)) : (xs.foldl Grouping.add {}).Sorts xs := by
  induction xs using List.reverseRecOn with
  | nil => exact ⟨.nil, fun e => by simp [opcodesIn], rfl⟩
  | append_singleton xs x ih =>
      rw [List.foldl_append]
      exact ih.add x

end Grouping

end Microcode

namespace Microcode.Program

variable {p : Program}

/-! ## opcodes by entry -/

/-- The opcodes of a control store with the given entry. -/
def opcodesWith (p : Program) (entry : Option Nat) : List Nat :=
  opcodesIn p.decodeEntries.zipIdx entry

/-- The opcodes with an entry are those whose word in the decode table stands for it. -/
theorem mem_opcodesWith_iff {entry : Option Nat} {opcode : Nat} :
    opcode ∈ p.opcodesWith entry ↔ p.decodeEntries[opcode]? = some entry := by
  simp [opcodesWith, opcodesIn, List.mem_zipIdx_iff_getElem?]

/-- Opcodes with the same entry are listed in ascending order. -/
theorem pairwise_opcodesWith (p : Program) (entry : Option Nat) :
    (p.opcodesWith entry).Pairwise (· < ·) := by
  have hindex : (p.decodeEntries.zipIdx.map (·.2)).Pairwise (· < ·) := by
    rw [List.zipIdx_map_snd]
    exact List.pairwise_lt_range'
  exact List.pairwise_map.mpr ((List.pairwise_map.mp hindex).filter _)

/-- An opcode has an entry when its word calls the entry, which is not address 0. -/
theorem decodeEntries_eq_some_iff {opcode address : Nat} :
    p.decodeEntries[opcode]? = some (some address) ↔
      ∃ w, p.get? (decodeBase + opcode) = some w ∧ w.jumpKind? = some .call ∧
        w.jumpTarget? = some address ∧ address ≠ 0 := by
  simp only [getElem?_decodeEntries, Option.map_eq_some_iff, entryOf_eq_some_iff]

/-- An entry address is an address of the code other than 0. -/
theorem entry_bounds {opcode address : Nat}
    (h : p.decodeEntries[opcode]? = some (some address)) :
    1 ≤ address ∧ address < decodeBase := by
  obtain ⟨w, -, -, htarget, hne⟩ := decodeEntries_eq_some_iff.mp h
  exact ⟨Nat.pos_of_ne_zero hne, MicroWord.jumpTarget?_lt htarget⟩

/-! ## entry points -/

/-- The opcodes are sorted by their entries. -/
theorem sorts_grouping (p : Program) : p.grouping.Sorts p.decodeEntries.zipIdx :=
  Grouping.sorts_foldl _

/-- An entry point has all opcodes with its address as their entry, and there are some. -/
theorem mem_entries_iff {entry : EntryPoint} :
    entry ∈ p.grouping.entries ↔
      entry.opcodes = p.opcodesWith (some entry.address) ∧ entry.opcodes ≠ [] :=
  p.sorts_grouping.mem_entries_iff entry

theorem unmatched_eq (p : Program) : p.grouping.unmatched = p.opcodesWith none :=
  p.sorts_grouping.unmatched

/-- The opcodes that are listed under an address are those with this entry. -/
theorem exists_mem_entries_iff {opcode address : Nat} :
    (∃ entry ∈ p.grouping.entries, entry.address = address ∧ opcode ∈ entry.opcodes) ↔
      p.decodeEntries[opcode]? = some (some address) := by
  constructor
  · rintro ⟨entry, hentry, rfl, hopcode⟩
    rw [(mem_entries_iff.mp hentry).1] at hopcode
    exact mem_opcodesWith_iff.mp hopcode
  · intro h
    have hopcode := mem_opcodesWith_iff.mpr h
    refine ⟨⟨address, p.opcodesWith (some address)⟩, mem_entries_iff.mpr ?_, rfl, hopcode⟩
    exact ⟨rfl, List.ne_nil_of_mem hopcode⟩

/-- Every entry point is the entry of an opcode. -/
theorem exists_opcode_of_mem_entries {entry : EntryPoint} (h : entry ∈ p.grouping.entries) :
    ∃ opcode : Nat, p.decodeEntries[opcode]? = some (some entry.address) := by
  obtain ⟨-, hne⟩ := mem_entries_iff.mp h
  obtain ⟨opcode, hopcode⟩ := List.exists_mem_of_ne_nil _ hne
  exact ⟨opcode, exists_mem_entries_iff.mp ⟨entry, h, rfl, hopcode⟩⟩

/-- The address of an entry point is an address of the code other than 0. -/
theorem address_bounds {entry : EntryPoint} (h : entry ∈ p.grouping.entries) :
    1 ≤ entry.address ∧ entry.address < decodeBase := by
  obtain ⟨opcode, hentry⟩ := exists_opcode_of_mem_entries h
  exact entry_bounds hentry

/-- No opcode is listed twice. -/
theorem nodup_opcodes (p : Program) :
    (p.grouping.entries.flatMap (·.opcodes) ++ p.grouping.unmatched).Nodup := by
  have hlists : ∀ entry, (p.opcodesWith entry).Nodup := fun entry =>
    (p.pairwise_opcodesWith entry).imp Nat.ne_of_lt
  rw [unmatched_eq, List.nodup_append', List.nodup_flatMap]
  refine ⟨⟨fun entry hentry => ?_, ?_⟩, hlists none, fun opcode hmatched hunmatched => ?_⟩
  · rw [(mem_entries_iff.mp hentry).1]
    exact hlists _
  · -- an opcode under two addresses would have two entries
    refine p.sorts_grouping.ascending.imp_of_mem fun {a b} ha hb hlt opcode hopcode hopcode' => ?_
    have hentry := exists_mem_entries_iff.mp ⟨a, ha, rfl, hopcode⟩
    have hentry' := exists_mem_entries_iff.mp ⟨b, hb, rfl, hopcode'⟩
    rw [hentry, Option.some.injEq, Option.some.injEq] at hentry'
    exact Nat.ne_of_lt hlt hentry'
  · obtain ⟨entry, hentry, hopcode⟩ := List.mem_flatMap.mp hmatched
    have hsome := exists_mem_entries_iff.mp ⟨entry, hentry, rfl, hopcode⟩
    have hnone := mem_opcodesWith_iff.mp hunmatched
    simp [hsome] at hnone

/-- Every opcode is listed once. -/
theorem perm_opcodes (p : Program) :
    (p.grouping.entries.flatMap (·.opcodes) ++ p.grouping.unmatched).Perm (List.range 256) := by
  rw [List.perm_ext_iff_of_nodup p.nodup_opcodes List.nodup_range]
  intro opcode
  rw [unmatched_eq, List.mem_append, List.mem_flatMap, mem_opcodesWith_iff, List.mem_range]
  constructor
  · rintro (⟨entry, hentry, hopcode⟩ | hnone)
    · have hsome := exists_mem_entries_iff.mp ⟨entry, hentry, rfl, hopcode⟩
      simpa using (List.getElem?_eq_some_iff.mp hsome).1
    · simpa using (List.getElem?_eq_some_iff.mp hnone).1
  · intro hlt
    cases hentry : p.decodeEntries[opcode]? with
    | none => simp at hentry; omega
    | some found =>
        cases found with
        | none => exact .inr rfl
        | some address =>
            obtain ⟨entry, hmem, -, hopcode⟩ := exists_mem_entries_iff.mpr hentry
            exact .inl ⟨entry, hmem, hopcode⟩

/-! ## reachable addresses -/

/-- Control gets from one address to another in one step. -/
def Leads (p : Program) (a b : Nat) : Prop := ∃ e, p.Step e ∧ e.source = a ∧ e.target = b

/-- The addresses that control can get to from the given ones, in any number of steps. -/
def reachableFrom (p : Program) (seeds : List Nat) : Set Nat :=
  {a | ∃ seed ∈ seeds, Relation.ReflTransGen p.Leads seed a}

/-- A walk from addresses of the code visits what can be reached from them. -/
theorem mem_visited_iff_reaches {seeds : List Nat} (hseeds : ∀ a ∈ seeds, a < decodeBase)
    {a : Nat} :
    a ∈ (p.walk seeds).visited ↔ a ∈ p.reachableFrom seeds := by
  obtain ⟨hstart, hstep⟩ := closed_visited p seeds
  have hclosed : p.Closed seeds (p.reachableFrom seeds) := by
    refine ⟨fun seed hseed _ => ⟨seed, hseed, .refl⟩, ?_⟩
    rintro e he ⟨seed, hseed, hreaches⟩
    exact ⟨seed, hseed, hreaches.tail ⟨e, he, rfl, rfl⟩⟩
  constructor
  · exact visited_subset hclosed
  · rintro ⟨seed, hseed, hreaches⟩
    induction hreaches with
    | refl => exact hstart seed hseed (hseeds seed hseed)
    | tail _ hleads ih =>
        obtain ⟨e, he, rfl, rfl⟩ := hleads
        exact hstep e he ih

/-- A walk from addresses of the code visits as many addresses as can be reached from them. -/
theorem length_visited_eq {seeds : List Nat} (hseeds : ∀ a ∈ seeds, a < decodeBase) :
    (p.walk seeds).visited.length = (p.reachableFrom seeds).ncard := by
  have hset : p.reachableFrom seeds = ((p.walk seeds).visited.toFinset : Set Nat) := by
    ext a
    rw [Finset.mem_coe, List.mem_toFinset, mem_visited_iff_reaches hseeds]
  rw [hset, Set.ncard_coe_finset, List.toFinset_card_of_nodup (nodup_visited p seeds)]

/-! ## the report -/

/-- The report lists every opcode once, under the address that its word in the decode table calls or
as unmatched, in ascending order throughout, and counts what can be reached from address 0 and from
the entry points. -/
theorem report_partition (p : Program) :
    (p.report.entries.flatMap (·.opcodes) ++ p.report.unmatched).Perm (List.range 256) ∧
      (∀ opcode address,
        (∃ entry ∈ p.report.entries, entry.address = address ∧ opcode ∈ entry.opcodes) ↔
          ∃ w, p.get? (256 + opcode) = some w ∧ w.jumpKind? = some .call ∧
            w.jumpTarget? = some address ∧ address ≠ 0) ∧
      (p.report.entries.map (·.address)).Pairwise (· < ·) ∧
      (∀ entry ∈ p.report.entries, (1 ≤ entry.address ∧ entry.address ≤ 255) ∧
        (∃ first rest, entry.opcodes = first :: rest) ∧ entry.opcodes.Pairwise (· < ·)) ∧
      p.report.unmatched.Pairwise (· < ·) ∧
      p.report.reachable = (p.reachableFrom (0 :: p.report.entries.map (·.address))).ncard ∧
      ∀ entry ∈ p.report.entries,
        entry.address ∈ p.reachableFrom (0 :: p.report.entries.map (·.address)) := by
  have hseeds : ∀ a ∈ 0 :: p.report.entries.map (·.address), a < decodeBase := by
    intro a ha
    rcases List.mem_cons.mp ha with rfl | ha
    · decide
    · obtain ⟨entry, hentry, rfl⟩ := List.mem_map.mp ha
      exact (address_bounds hentry).2
  refine ⟨p.perm_opcodes, fun opcode address => ?_, List.pairwise_map.mpr p.sorts_grouping.ascending,
    fun entry hentry => ⟨?_, ?_, ?_⟩, ?_, length_visited_eq hseeds, fun entry hentry => ?_⟩
  · exact exists_mem_entries_iff.trans decodeEntries_eq_some_iff
  · obtain ⟨hpos, hlt⟩ := address_bounds hentry
    exact ⟨hpos, Nat.le_of_lt_succ hlt⟩
  · exact List.exists_cons_of_ne_nil (mem_entries_iff.mp hentry).2
  · rw [(mem_entries_iff.mp hentry).1]
    exact p.pairwise_opcodesWith _
  · show p.grouping.unmatched.Pairwise (· < ·)
    rw [unmatched_eq]
    exact p.pairwise_opcodesWith none
  · exact ⟨entry.address, List.mem_cons_of_mem _ (List.mem_map_of_mem hentry), .refl⟩

/-- Two calls of address 5 share an entry point, which a conditional call of it and a call of
address 0 do not. -/
theorem report_partition_shared_entry :
    ∃ p : Program,
      p.decodeWords.take 4 = [0x08000005, 0x10000005, 0x08000000, 0x08000005].map .ofNat ∧
        (p.report.entries.flatMap (·.opcodes) ++ p.report.unmatched).Perm (List.range 256) ∧
          ∀ opcode < 4, (∃ entry ∈ p.report.entries, entry.address = 5 ∧ opcode ∈ entry.opcodes) ↔
            opcode = 0 ∨ opcode = 3 := by
  let calls := fill 256 paddingWord
    ([0x08000005, 0x10000005, 0x08000000, 0x08000005].map .ofNat)
  let p := ofParts [] calls (length_fill _ _ _)
  have hentries : ∀ opcode < 4, p.decodeEntries[opcode]? = some (some 5) ↔
      opcode = 0 ∨ opcode = 3 := by decide +kernel
  obtain ⟨hperm, hlisted, -⟩ := report_partition p
  refine ⟨p, by decide +kernel, hperm, fun opcode hlt => ?_⟩
  rw [hlisted, ← hentries opcode hlt]
  exact decodeEntries_eq_some_iff.symm

end Microcode.Program
