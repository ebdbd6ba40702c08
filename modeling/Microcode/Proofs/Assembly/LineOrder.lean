import Microcode.Proofs.Assembly.Outcome
import Mathlib.Data.Nat.Find
import Mathlib.Logic.Equiv.Basic

/-!
# Microcode.Proofs.Assembly.LineOrder

Neighbouring lines that give no word may change places.

Nothing that is said about a source line by line depends on the order of its lines, as long as each
line keeps the words before it (`Source.Rearranged`).  The first of the cheapest patterns for an opcode
may then be another one, but its entry address is the same: the least address that a cheapest
pattern stands at (`Source.exists_decodes_iff`).  Two neighbouring lines without words stand at the
same address, so exchanging them is such a rearrangement (`Source.rearranged_swap`), and it leaves
the slots as they are (`Source.gather_slot?_pair`).
-/

namespace Microcode

open Result Source

namespace Source

/-! ## the address that an opcode is decoded to -/

/-- The least address that a cheapest pattern for the opcode stands at. -/
def EntersAt (lines : List String) (opcode : UInt8) (a : Nat) : Prop :=
  (∃ i, Cheapest lines opcode i ∧ addressAt lines i = a) ∧
    ∀ j, Cheapest lines opcode j → a ≤ addressAt lines j

/-- The line that decodes an opcode stands at the least address of the cheapest ones. -/
theorem exists_decodes_iff {lines : List String} {opcode : UInt8} {a : Nat} :
    (∃ i, Decodes lines opcode i ∧ addressAt lines i = a) ↔ EntersAt lines opcode a := by
  classical
  constructor
  · rintro ⟨i, ⟨hi, hfirst⟩, rfl⟩
    refine ⟨⟨i, hi, rfl⟩, fun j hj => addressAt_mono lines ?_⟩
    exact Nat.le_of_not_lt fun hlt => hfirst j hlt hj
  · rintro ⟨⟨i, hi, rfl⟩, hleast⟩
    have hexists : ∃ i, Cheapest lines opcode i := ⟨i, hi⟩
    refine ⟨Nat.find hexists, ⟨Nat.find_spec hexists, fun j => Nat.find_min hexists⟩, ?_⟩
    apply Nat.le_antisymm
    · exact addressAt_mono lines (Nat.find_le hi)
    · exact hleast _ (Nat.find_spec hexists)

/-! ## another order of the lines -/

/-- The second source has the lines of the first one in another order, in which the line with index
`i` has the index `σ i` and as many words before it as it had. -/
structure Rearranged (σ : Equiv.Perm Nat) (lines lines' : List String) : Prop where
  getElem? : ∀ i, lines'[σ i]? = lines[i]?
  address : ∀ i, addressAt lines' (σ i) = addressAt lines i

namespace Rearranged

variable {σ : Equiv.Perm Nat} {lines lines' : List String}

theorem symm (h : Rearranged σ lines lines') : Rearranged σ.symm lines' lines where
  getElem? := fun i => by rw [← h.getElem?, σ.apply_symm_apply]
  address := fun i => by rw [← h.address, σ.apply_symm_apply]

theorem holds_iff (h : Rearranged σ lines lines') {i : Nat} {line : Line} :
    Holds lines' (σ i) line ↔ Holds lines i line := holds_congr (h.getElem? i)

theorem declares_iff (h : Rearranged σ lines lines') {i : Nat} {text : List Char} :
    Declares lines' (σ i) text ↔ Declares lines i text := by
  simp only [Declares, h.holds_iff]

theorem cheapest (h : Rearranged σ lines lines') {opcode : UInt8} {i : Nat}
    (hi : Cheapest lines opcode i) : Cheapest lines' opcode (σ i) := by
  obtain ⟨text, htext, hmatch, hleast⟩ := hi
  exact ⟨text, h.declares_iff.mpr htext, hmatch, fun j other hj =>
    hleast _ other (h.symm.declares_iff.mpr hj)⟩

/-- A well-formed source is well-formed in another order. -/
theorem wellFormed (h : Rearranged σ lines lines') (hwf : WellFormed lines) : WellFormed lines' where
  readable := fun raw hraw => by
    obtain ⟨i, hi⟩ := List.mem_iff_getElem?.mp hraw
    exact hwf.readable raw (List.mem_of_getElem? ((h.symm.getElem? i).trans hi))
  patterns_valid := fun i text hi => hwf.patterns_valid _ text (h.symm.declares_iff.mpr hi)
  labels_unique := fun i j name hi hj => σ.symm.injective
    (hwf.labels_unique _ _ name (h.symm.holds_iff.mpr hi) (h.symm.holds_iff.mpr hj))
  patterns_unique := fun i j text hi hj => σ.symm.injective
    (hwf.patterns_unique _ _ text (h.symm.declares_iff.mpr hi) (h.symm.declares_iff.mpr hj))
  mnemonics_unique := fun i j text hi hj => σ.symm.injective
    (hwf.mnemonics_unique _ _ text (h.symm.holds_iff.mpr hi) (h.symm.holds_iff.mpr hj))

theorem unambiguous (h : Rearranged σ lines lines') (hlines : Unambiguous lines) :
    Unambiguous lines' := fun opcode _ _ hi hj =>
  σ.symm.injective (hlines opcode _ _ (h.symm.cheapest hi) (h.symm.cheapest hj))

theorem entersAt (h : Rearranged σ lines lines') {opcode : UInt8} {a : Nat}
    (hlines : EntersAt lines opcode a) : EntersAt lines' opcode a := by
  obtain ⟨⟨i, hi, rfl⟩, hleast⟩ := hlines
  refine ⟨⟨σ i, h.cheapest hi, h.address i⟩, fun j hj => ?_⟩
  rw [← h.symm.address]
  exact hleast _ (h.symm.cheapest hj)

end Rearranged

/-! ## two neighbouring lines -/

section Swap

variable (before after : List String) {x y : String}

/-- Lines that give no word move no address. -/
theorem addressAt_pair (hx : emits x = false) (hy : emits y = false) (j : Nat) :
    addressAt (before ++ x :: y :: after) (before.length + j) =
      wordCount before + wordCount (after.take (j - 2)) := by
  rw [addressAt_append_right]
  rcases j with _ | _ | j <;> simp [addressAt, wordCount, hx, hy]

/-- Exchanging two neighbouring lines that give no word keeps the words before every line. -/
theorem rearranged_swap (hx : emits x = false) (hy : emits y = false) :
    Rearranged (Equiv.swap before.length (before.length + 1)) (before ++ x :: y :: after)
      (before ++ y :: x :: after) := by
  have hcases : ∀ i, i < before.length ∨ i = before.length ∨ i = before.length + 1 ∨
      ∃ j, i = before.length + (j + 2) := fun i => by
    rcases Nat.lt_or_ge i (before.length + 2) with hlt | hge
    · omega
    · obtain ⟨j, rfl⟩ := Nat.exists_eq_add_of_le hge
      exact .inr (.inr (.inr ⟨j, by omega⟩))
  constructor
  · intro i
    rcases hcases i with hlt | rfl | rfl | ⟨j, rfl⟩
    · rw [Equiv.swap_apply_of_ne_of_ne (by omega) (by omega), List.getElem?_append_left hlt,
        List.getElem?_append_left hlt]
    · simp
    · simp
    · rw [Equiv.swap_apply_of_ne_of_ne (by omega) (by omega)]
      simp [List.getElem?_append_right]
  · intro i
    rcases hcases i with hlt | rfl | rfl | ⟨j, rfl⟩
    · rw [Equiv.swap_apply_of_ne_of_ne (by omega) (by omega),
        addressAt_append (Nat.le_of_lt hlt), addressAt_append (Nat.le_of_lt hlt)]
    · rw [Equiv.swap_apply_left, addressAt_pair before after hy hx,
        ← addressAt_pair before after hx hy 0]
      rfl
    · rw [Equiv.swap_apply_right, addressAt_pair before after hx hy,
        ← addressAt_pair before after hy hx 0]
      rfl
    · rw [Equiv.swap_apply_of_ne_of_ne (by omega) (by omega), addressAt_pair before after hy hx,
        addressAt_pair before after hx hy]

/-- Lines that give no word leave no slot, and the lines after them keep their numbers. -/
theorem gather_slot?_pair (hx : emits x = false) (hy : emits y = false) :
    gather (fun raw _ n => slot? raw n) (before ++ x :: y :: after) =
      gather (fun raw _ n => slot? raw n) before ++
        gather (fun raw _ n => slot? raw (before.length + (2 + n))) after := by
  have hnone : ∀ {raw : String}, emits raw = false → ∀ n, slot? raw n = none := fun h n => by
    rw [← Option.not_isSome_iff_eq_none, isSome_slot?, h]
    exact Bool.false_ne_true
  have hsplit : x :: y :: after = [x, y] ++ after := rfl
  rw [gather_append, hsplit, gather_append]
  simp [gather, hnone hx, hnone hy]

end Swap

end Source

/-! ## drafts of the two sources -/

/-- The two assemblies have the same words, the same entry addresses of opcodes and the same labels at
the same addresses. -/
structure Assembly.SameCode (asm asm' : Assembly) : Prop where
  program : asm.program = asm'.program
  authored : asm.authored = asm'.authored
  decode : asm.decode = asm'.decode
  labels : ∀ name, asm.labels.address? name = asm'.labels.address? name

/-- Jumps are resolved by the addresses of the labels alone. -/
theorem Slot.resolve_congr {labels labels' : LabelTable}
    (h : ∀ name, labels.address? name = labels'.address? name) :
    resolve labels = resolve labels' := by
  have htarget : target? labels = target? labels' := by
    funext slot
    simp only [target?, h]
  have hundefined : undefined? labels = undefined? labels' := by
    funext slot
    simp only [undefined?, h]
  have hpatch : patch labels = patch labels' := by
    funext slot
    rw [patch, patch, htarget]
  funext slots
  rw [resolve_eq, resolve_eq, hpatch, hundefined]

namespace Draft

variable {d d' : Draft} {lines lines' : List String} {σ : Equiv.Perm Nat}

/-- An opcode is decoded to the least address of its cheapest patterns. -/
theorem Reads.entry?_eq_some_iff_entersAt (hd : d.Reads lines) {opcode : UInt8} {entry : UInt16} :
    d.patterns.entry? opcode = some entry ↔
      ∃ a, EntersAt lines opcode a ∧ entry = .ofNat a := by
  simp only [hd.entry?_eq_some_iff, ← exists_decodes_iff]
  constructor
  · rintro ⟨i, hi, rfl⟩
    exact ⟨_, ⟨i, hi, rfl⟩, rfl⟩
  · rintro ⟨_, ⟨i, hi, rfl⟩, rfl⟩
    exact ⟨i, hi, rfl⟩

variable (h : Rearranged σ lines lines') (hd : d.Reads lines) (hd' : d'.Reads lines')
include h hd hd'

/-- In another order, the labels stand for the same addresses. -/
theorem Reads.address?_rearranged (hwf : WellFormed lines) (name : String) :
    d.labels.address? name = d'.labels.address? name := by
  refine Option.ext fun address => ?_
  rw [hd.address?_eq_some_iff hwf, hd'.address?_eq_some_iff (h.wellFormed hwf)]
  constructor
  · rintro ⟨j, hj, rfl⟩
    exact ⟨σ j, h.holds_iff.mpr hj, by rw [h.address]⟩
  · rintro ⟨j, hj, rfl⟩
    exact ⟨σ.symm j, h.symm.holds_iff.mpr hj, by rw [h.symm.address]⟩

/-- In another order, every opcode is decoded to the same address. -/
theorem Reads.entry?_rearranged (opcode : UInt8) :
    d.patterns.entry? opcode = d'.patterns.entry? opcode := by
  refine Option.ext fun entry => ?_
  rw [hd.entry?_eq_some_iff_entersAt, hd'.entry?_eq_some_iff_entersAt]
  exact ⟨fun ⟨a, ha, he⟩ => ⟨a, h.entersAt ha, he⟩, fun ⟨a, ha, he⟩ => ⟨a, h.symm.entersAt ha, he⟩⟩

/-- In another order, the decode table is the same, or is refused again. -/
theorem Reads.decodeTable_rearranged (config : Config) :
    Related (fun _ _ => True) (· = ·) (d.decodeTable config lines)
      (d'.decodeTable config lines') := by
  refine .of_exists_ok_iff ?_ fun t t' ht ht' => ?_
  · rw [hd.exists_decodeTable_iff, hd'.exists_decodeTable_iff]
    exact ⟨fun hlines htie => h.unambiguous (hlines htie),
      fun hlines htie => h.symm.unambiguous (hlines htie)⟩
  · obtain ⟨-, hentries⟩ := PatternSet.decodeTable_eq_ok_iff.mp (mapError_eq_ok_iff.mp ht)
    obtain ⟨-, hentries'⟩ := PatternSet.decodeTable_eq_ok_iff.mp (mapError_eq_ok_iff.mp ht')
    simp only [Reads.entry?_rearranged h hd hd'] at hentries
    exact DecodeTable.ext (hentries.trans hentries'.symm)

/-- In another order that leaves the slots as they are, the second pass ends alike. -/
theorem Reads.finish_rearranged (hwf : WellFormed lines) (hslots : d.slots = d'.slots)
    (config : Config) :
    Related (fun _ _ => True) Assembly.SameCode (d.finish config lines)
      (d'.finish config lines') := by
  have hlabels := Reads.address?_rearranged h hd hd' hwf
  rw [finish_eq, finish_eq, hslots, Slot.resolve_congr hlabels]
  split
  · exact .error trivial
  · cases Slot.resolve d'.labels d'.slots.toList with
    | error e => exact .error trivial
    | ok code =>
        refine (Reads.decodeTable_rearranged h hd hd' config).bind ?_
        rintro decode _ rfl
        cases Program.ofTable code decode with
        | error e => exact .error trivial
        | ok program =>
            exact .ok
              { program := rfl
                authored := congrArg Array.size hslots
                decode := rfl
                labels := hlabels }

end Draft

/-- Two neighbouring lines that are neither instructions nor jumps may change places: either neither
source assembles, or both do, with the same words, entry addresses and labels. -/
theorem assembleLines_swap (config : Config) (before after : List String) {x y : String}
    (hx : emits x = false) (hy : emits y = false) :
    Related (fun _ _ => True) Assembly.SameCode
      (assembleLines config (before ++ x :: y :: after))
      (assembleLines config (before ++ y :: x :: after)) := by
  have h := rearranged_swap before after hx hy
  have hfirst : Related (fun _ _ => True)
      (fun d d' => WellFormed (before ++ x :: y :: after) ∧
        d.Reads (before ++ x :: y :: after) ∧ d'.Reads (before ++ y :: x :: after))
      (Draft.ofLines (before ++ x :: y :: after)) (Draft.ofLines (before ++ y :: x :: after)) := by
    refine .of_exists_ok_iff ?_ fun d d' hd hd' =>
      ⟨Draft.exists_ofLines_iff.mp ⟨d, hd⟩, Draft.reads_of_ofLines hd, Draft.reads_of_ofLines hd'⟩
    rw [Draft.exists_ofLines_iff, Draft.exists_ofLines_iff]
    exact ⟨h.wellFormed, h.symm.wellFormed⟩
  refine hfirst.bind fun d d' ⟨hwf, hd, hd'⟩ => ?_
  have hslots : d.slots = d'.slots := by
    rw [← Array.toList_inj, hd.slots, hd'.slots, gather_slot?_pair before after hx hy,
      gather_slot?_pair before after hy hx]
  exact Draft.Reads.finish_rearranged h hd hd' hwf hslots config

/-- Two patterns of the same cost for opcode 0 are registered in the opposite order, and it is still
decoded to the line after them. -/
theorem assembleLines_swap_tied :
    emits "__code \"0000000-\"" = false ∧ emits "__code \"000000-0\"" = false ∧
      ∃ asm asm',
        assembleLines {} (["NOP"] ++ "__code \"0000000-\"" :: "__code \"000000-0\"" :: ["NOP"]) =
            .ok asm ∧
          assembleLines {} (["NOP"] ++ "__code \"000000-0\"" :: "__code \"0000000-\"" :: ["NOP"]) =
              .ok asm' ∧
            asm.patterns ≠ asm'.patterns ∧ asm.decode.get? 0 = some 1 ∧ asm.SameCode asm' := by
  have hx : emits "__code \"0000000-\"" = false := by decide +kernel
  have hy : emits "__code \"000000-0\"" = false := by decide +kernel
  have hrun : (assembleLines {}
      (["NOP"] ++ "__code \"0000000-\"" :: "__code \"000000-0\"" :: ["NOP"])).map
        (fun asm => (asm.patterns.patterns.map (·.text), asm.decode.get? 0)) =
      .ok (["0000000-", "000000-0"], some 1) := by
    decide +kernel
  have hrun' : (assembleLines {}
      (["NOP"] ++ "__code \"000000-0\"" :: "__code \"0000000-\"" :: ["NOP"])).map
        (·.patterns.patterns.map (·.text)) = .ok ["000000-0", "0000000-"] := by
    decide +kernel
  obtain ⟨asm, hasm, hseen⟩ := map_eq_ok_iff.mp hrun
  obtain ⟨asm', hasm', htexts'⟩ := map_eq_ok_iff.mp hrun'
  obtain ⟨htexts, hentry⟩ := Prod.mk.inj hseen
  have hrel := assembleLines_swap {} ["NOP"] ["NOP"] hx hy
  rw [hasm, hasm'] at hrel
  refine ⟨hx, hy, asm, asm', hasm, hasm', fun heq => ?_, hentry, ?_⟩
  · rw [heq, htexts'] at htexts
    simp at htexts
  · cases hrel with
    | ok h => exact h

end Microcode
