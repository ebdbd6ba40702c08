import Microcode.Proofs.Assembly.Outcome

/-!
# Microcode.Proofs.Assembly.UndefinedLabels

Jumps to labels that no line defines are all reported at once.

The second pass goes through the slots of the first in order.  It stops at a target that cannot be
written, wherever the slot stands, and otherwise collects every jump without a target.  Said on the
lines of a source:

* `Draft.Reads.exists_patch_iff` — no slot stops it exactly when every jump to a defined label lands;
* `Draft.Reads.reports` — what it collects is one item for each jump to an undefined label, in source
  order.

`assemble_eq_undefinedLabels_iff` puts them together.
-/

namespace Microcode

open Result Source

/-! ## jumps without a target -/

namespace Source

/-- The line is a jump to a label that no line defines, and `jump` says what is reported of it: the
label, the number of the line, counted from 1, and the line without the blanks it ends with. -/
def Dangles (lines : List String) (i : Nat) (jump : PendingJump) : Prop :=
  ∃ raw kind, lines[i]? = some raw ∧ Line.parse raw = .ok (some (.jump kind jump.label)) ∧
    (∀ j, ¬Holds lines j (.label jump.label)) ∧
      jump.line = i + 1 ∧ jump.text = Text.trimEndString raw

/-- The items are those of the jumps to undefined labels, one for each line and in the order of the
lines. -/
structure Reports (lines : List String) (jumps : List PendingJump) : Prop where
  mem_iff : ∀ jump, jump ∈ jumps ↔ ∃ i, Dangles lines i jump
  ordered : jumps.Pairwise fun jump jump' => jump.line < jump'.line

/-- Something is reported exactly when there is a jump to an undefined label. -/
theorem Reports.ne_nil_iff {lines : List String} {jumps : List PendingJump}
    (h : Reports lines jumps) :
    jumps ≠ [] ↔ ∃ i kind label, Holds lines i (.jump kind label) ∧
      ∀ j, ¬Holds lines j (.label label) := by
  constructor
  · intro hne
    obtain ⟨jump, hjump⟩ := List.exists_mem_of_ne_nil _ hne
    obtain ⟨i, raw, kind, hraw, hparse, hnone, -⟩ := (h.mem_iff jump).mp hjump
    exact ⟨i, kind, jump.label, ⟨raw, hraw, hparse⟩, hnone⟩
  · rintro ⟨i, kind, label, ⟨raw, hraw, hparse⟩, hnone⟩
    exact List.ne_nil_of_mem ((h.mem_iff ⟨label, i + 1, Text.trimEndString raw⟩).mpr
      ⟨i, raw, kind, hraw, hparse, hnone, rfl, rfl⟩)

/-- Every jump to a label that some line defines goes to one with at most 255 words before it. -/
def DefinedJumpsLand (lines : List String) : Prop :=
  ∀ i kind label j, Holds lines i (.jump kind label) → Holds lines j (.label label) →
    addressAt lines j ≤ 255

/-- Past 255 there is only the address after 256 words. -/
theorem not_jumpPastEnd_iff {lines : List String} (hfits : wordCount lines ≤ 256) :
    ¬JumpPastEnd lines ↔ DefinedJumpsLand lines := by
  constructor
  · intro h i kind label j hi hj
    have hle := addressAt_le lines j
    by_contra hgt
    exact h ⟨i, kind, label, j, hi, hj, by omega⟩
  · rintro h ⟨i, kind, label, j, hi, hj, haddress⟩
    have hle := h i kind label j hi hj
    omega

/-- The item of a line: it is there for a jump whose label has no address. -/
theorem bind_undefined?_eq_some_iff {raw : String} {n : Nat} {labels : LabelTable}
    {jump : PendingJump} :
    (slot? raw n).bind (Slot.undefined? labels) = some jump ↔
      ∃ kind, Line.parse raw = .ok (some (.jump kind jump.label)) ∧
        labels.address? jump.label = none ∧ jump.line = n ∧ jump.text = Text.trimEndString raw := by
  constructor
  · intro h
    obtain ⟨slot, hslot, hundefined⟩ := Option.bind_eq_some_iff.mp h
    rcases slot?_cases hslot with ⟨w, -, rfl⟩ | ⟨kind, label, hparse, rfl⟩
    · simp [Slot.undefined?] at hundefined
    · simp only [Slot.undefined?, Option.filter_some, Option.ite_none_right_eq_some,
        Option.isNone_iff_eq_none, Option.some.injEq] at hundefined
      obtain ⟨hnone, rfl⟩ := hundefined
      exact ⟨kind, hparse, hnone, rfl, rfl⟩
  · rintro ⟨kind, hparse, hnone, rfl, htext⟩
    simp [slot?_jump hparse, Slot.undefined?, hnone, ← htext]

end Source

/-! ## the second pass -/

/-- Undefined labels are reported when every slot can be patched and some jump has no target. -/
theorem Slot.resolve_eq_undefinedLabels_iff {labels : LabelTable} {slots : List Slot}
    {jumps : List PendingJump} :
    resolve labels slots = .error (.undefinedLabels jumps) ↔
      (∃ words, slots.mapM (patch labels) = .ok words) ∧
        slots.filterMap (undefined? labels) = jumps ∧ jumps ≠ [] := by
  rw [resolve_eq, bind_eq_error_iff]
  constructor
  · rintro (hpatch | ⟨words, hpatch, hrest⟩)
    · obtain ⟨e, -, he⟩ := mapError_eq_error_iff.mp hpatch
      contradiction
    · split at hrest
      · contradiction
      · next hne =>
          obtain rfl := AsmError.undefinedLabels.inj (Except.error.inj hrest)
          exact ⟨⟨words, mapError_eq_ok_iff.mp hpatch⟩, rfl, hne⟩
  · rintro ⟨⟨words, hpatch⟩, rfl, hne⟩
    refine .inr ⟨words, mapError_eq_ok_iff.mpr hpatch, ?_⟩
    split
    · next hnil => exact absurd hnil hne
    · rfl

namespace Draft

variable {d : Draft} {config : Config} {lines : List String} {jumps : List PendingJump}

/-- Every slot can be patched exactly when every jump to a defined label lands. -/
theorem Reads.exists_patch_iff (hd : d.Reads lines) (hwf : WellFormed lines)
    (hfits : wordCount lines ≤ 256) :
    (∃ words, d.slots.toList.mapM (Slot.patch d.labels) = .ok words) ↔ DefinedJumpsLand lines := by
  have hencoding : ∀ e, d.slots.toList.mapM (Slot.patch d.labels) = .error e ↔
      e = .overflow 256 8 ∧ JumpPastEnd lines := fun e => by
    rw [← Slot.resolve_eq_encoding_iff, hd.resolve_eq_encoding_iff hwf hfits]
  rw [← not_jumpPastEnd_iff hfits]
  constructor
  · rintro ⟨words, hwords⟩ hpast
    have herror := (hencoding _).mpr ⟨rfl, hpast⟩
    rw [hwords] at herror
    contradiction
  · intro hland
    rcases ok_or_error (d.slots.toList.mapM (Slot.patch d.labels)) with hok | ⟨e, he⟩
    · exact hok
    · exact absurd ((hencoding e).mp he).2 hland

/-- The jumps without a target are those to labels that no line defines. -/
theorem Reads.reports (hd : d.Reads lines) :
    Reports lines (d.slots.toList.filterMap (Slot.undefined? d.labels)) := by
  have haddress : ∀ name, d.labels.address? name = none ↔ ∀ j, ¬Holds lines j (.label name) :=
    fun name => by rw [LabelTable.address?, Option.map_eq_none_iff, hd.get?_label_eq_none_iff]
  rw [hd.slots, filterMap_gather]
  constructor
  · intro jump
    rw [mem_gather_iff]
    simp only [bind_undefined?_eq_some_iff, haddress]
    constructor
    · rintro ⟨i, raw, hraw, kind, hparse, hnone, hline, htext⟩
      exact ⟨i, raw, kind, hraw, hparse, hnone, hline, htext⟩
    · rintro ⟨i, raw, kind, hraw, hparse, hnone, hline, htext⟩
      exact ⟨i, raw, hraw, kind, hparse, hnone, hline, htext⟩
  · refine pairwise_gather (fun raw a n jump hjump => ?_) lines
    obtain ⟨kind, -, -, hline, -⟩ := bind_undefined?_eq_some_iff.mp hjump
    exact hline

/-- The second pass reports undefined labels when it resolves the jumps, unless there are too many
words. -/
theorem finish_eq_undefinedLabels_iff :
    d.finish config lines = .error (.undefinedLabels jumps) ↔
      d.slots.size ≤ 256 ∧ Slot.resolve d.labels d.slots.toList = .error (.undefinedLabels jumps) := by
  rw [finish_eq_error_iff]
  constructor
  · rintro (⟨-, he⟩ | ⟨hfits, hresolve | ⟨code, -, hdecode | ⟨decode, -, cause, -, he⟩⟩⟩)
    · contradiction
    · exact ⟨hfits, hresolve⟩
    · obtain ⟨line, text, cause, he, -⟩ := decodeTable_eq_error hdecode
      contradiction
    · contradiction
  · rintro ⟨hfits, hresolve⟩
    exact .inr ⟨hfits, .inl hresolve⟩

/-- When the second pass reports undefined labels, and which. -/
theorem Reads.finish_eq_undefinedLabels_iff (hd : d.Reads lines) (hwf : WellFormed lines) :
    d.finish config lines = .error (.undefinedLabels jumps) ↔
      wordCount lines ≤ 256 ∧ DefinedJumpsLand lines ∧
        d.slots.toList.filterMap (Slot.undefined? d.labels) = jumps ∧ jumps ≠ [] := by
  rw [Draft.finish_eq_undefinedLabels_iff, Slot.resolve_eq_undefinedLabels_iff, hd.size_slots]
  exact and_congr_right fun hfits => and_congr_left fun _ => hd.exists_patch_iff hwf hfits

end Draft

/-! ## sources -/

/-- Undefined labels are reported exactly for sources that the first pass accepts, of at most 256
words, with a jump to an undefined label and none to an address that a jump cannot have; and then
all such jumps are reported. -/
theorem assemble_eq_undefinedLabels_iff (config : Config) (source : String) :
    ((∃ jumps, assemble config source = .error (.undefinedLabels jumps)) ↔
      WellFormed (Text.linesOf source) ∧ wordCount (Text.linesOf source) ≤ 256 ∧
        (∃ i kind label, Holds (Text.linesOf source) i (.jump kind label) ∧
          ∀ j, ¬Holds (Text.linesOf source) j (.label label)) ∧
          DefinedJumpsLand (Text.linesOf source)) ∧
      ∀ jumps, assemble config source = .error (.undefinedLabels jumps) →
        Reports (Text.linesOf source) jumps := by
  have hsource : ∀ jumps line text cause,
      AsmError.undefinedLabels jumps ≠ .source line text cause := by simp
  refine ⟨⟨?_, ?_⟩, ?_⟩
  · rintro ⟨jumps, h⟩
    obtain ⟨d, hd, hfinish⟩ := (assemble_eq_error_iff (hsource jumps)).mp h
    have hwf := Draft.exists_ofLines_iff.mp ⟨d, hd⟩
    have hreads := Draft.reads_of_ofLines hd
    obtain ⟨hfits, hland, rfl, hne⟩ := (hreads.finish_eq_undefinedLabels_iff hwf).mp hfinish
    exact ⟨hwf, hfits, hreads.reports.ne_nil_iff.mp hne, hland⟩
  · rintro ⟨hwf, hfits, hdangling, hland⟩
    obtain ⟨d, hd⟩ := Draft.exists_ofLines_iff.mpr hwf
    have hreads := Draft.reads_of_ofLines hd
    have hne := hreads.reports.ne_nil_iff.mpr hdangling
    exact ⟨_, (assemble_eq_error_iff (hsource _)).mpr
      ⟨d, hd, (hreads.finish_eq_undefinedLabels_iff hwf).mpr ⟨hfits, hland, rfl, hne⟩⟩⟩
  · intro jumps h
    obtain ⟨d, hd, hfinish⟩ := (assemble_eq_error_iff (hsource jumps)).mp h
    have hreads := Draft.reads_of_ofLines hd
    obtain ⟨-, -, rfl, -⟩ :=
      (hreads.finish_eq_undefinedLabels_iff (Draft.exists_ofLines_iff.mp ⟨d, hd⟩)).mp hfinish
    exact hreads.reports

/-- Two jumps without a target, before and after one that lands. -/
theorem assemble_eq_undefinedLabels_two :
    ∃ jumps, assemble {} "JSR x\nTJSR b \n:b\n  JSR y // far\n" = .error (.undefinedLabels jumps) ∧
      Reports (Text.linesOf "JSR x\nTJSR b \n:b\n  JSR y // far\n") jumps ∧
        jumps = [⟨"x", 1, "JSR x"⟩, ⟨"y", 4, "  JSR y // far"⟩] := by
  have hrun : assemble {} "JSR x\nTJSR b \n:b\n  JSR y // far\n" =
      .error (.undefinedLabels [⟨"x", 1, "JSR x"⟩, ⟨"y", 4, "  JSR y // far"⟩]) := by
    decide +kernel
  exact ⟨_, hrun, (assemble_eq_undefinedLabels_iff {} _).2 _ hrun, rfl⟩

end Microcode
