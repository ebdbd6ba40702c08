import Microcode.Assembly.Basic
import Microcode.Proofs.Assembly.FirstPass

/-!
# Microcode.Proofs.Assembly.SecondPass

The second pass on the draft that a source describes.

Three steps may still fail, and each of them is settled on the lines of the source:

* `Draft.Reads.exists_resolve_iff` — all jumps are resolved exactly when they land;
* `Draft.Reads.exists_decodeTable_iff` — there is a decode table unless ties are refused and the
  source is ambiguous;
* `Draft.Reads.exists_words_iff` — the decode table is encoded exactly when its entries land.

`Draft.Reads.resolve_eq_encoding_iff` and `Draft.Reads.words_eq_error_iff` say when the packer is to
blame: for a jump or an entry that has 256 words before it.

Addresses of 16 bits stand for the exact ones here, since there are at most 256 words.
-/

namespace Microcode

open Result Source

namespace Draft

variable {d : Draft} {lines : List String}

/-! ## labels -/

/-- The number of words before a line, as an address, while the words fit. -/
theorem toNat_ofNat_addressAt (hfits : wordCount lines ≤ 256) (i : Nat) :
    (UInt16.ofNat (addressAt lines i)).toNat = addressAt lines i := by
  have hle := addressAt_le lines i
  rw [UInt16.toNat_ofNat']
  exact Nat.mod_eq_of_lt (by omega)

/-- The address of a label is that of the line which defines it. -/
theorem Reads.address?_eq_some_iff (hd : d.Reads lines) (hwf : WellFormed lines) {name : String}
    {address : UInt16} :
    d.labels.address? name = some address ↔
      ∃ j, Holds lines j (.label name) ∧ address = .ofNat (addressAt lines j) := by
  rw [LabelTable.address?, Option.map_eq_some_iff]
  constructor
  · rintro ⟨def_, hget, rfl⟩
    obtain ⟨j, hj, rfl⟩ := hd.mem_defs_iff.mp (LabelTable.mem_defs_of_get? hget)
    exact ⟨j, hj, rfl⟩
  · rintro ⟨j, hj, rfl⟩
    cases hget : d.labels.get? name with
    | none => exact absurd hj (hd.get?_label_eq_none_iff.mp hget j)
    | some def_ =>
        obtain ⟨i, hi, rfl⟩ := hd.mem_defs_iff.mp (LabelTable.mem_defs_of_get? hget)
        obtain rfl := hwf.labels_unique i j name hi hj
        exact ⟨_, rfl, rfl⟩

end Draft

/-! ## slots -/

namespace Source

/-- The slot of a line stands at the address of the line. -/
theorem getElem?_gather_slot? {lines : List String} {i : Nat} {raw : String} {slot : Slot}
    (hraw : lines[i]? = some raw) (hslot : slot? raw (i + 1) = some slot) :
    (gather (fun raw _ n => slot? raw n) lines)[addressAt lines i]? = some slot := by
  have hemits : emits raw = true := by rw [← isSome_slot? raw (i + 1), hslot]; rfl
  rw [getElem?_gather (fun raw _ n => isSome_slot? raw n) hraw hemits, hslot]

/-- The slot of a regular instruction. -/
theorem slot?_word {raw : String} {w : MicroWord} (h : Line.parse raw = .ok (some (.word w)))
    (line : Nat) : slot? raw line = some { word := w, line } := by
  rw [slot?, content?_of_parse h]

/-- The slot of a jump. -/
theorem slot?_jump {raw : String} {kind : JumpKind} {label : String}
    (h : Line.parse raw = .ok (some (.jump kind label))) (line : Nat) :
    slot? raw line =
      some { word := .opened kind, line, pending := some ⟨label, line, Text.trimEndString raw⟩ } := by
  rw [slot?, content?_of_parse h]

/-- Every slot is that of a regular instruction or that of a jump. -/
theorem slot?_cases {raw : String} {line : Nat} {slot : Slot} (h : slot? raw line = some slot) :
    (∃ w, Line.parse raw = .ok (some (.word w)) ∧ slot = { word := w, line }) ∨
      ∃ kind label, Line.parse raw = .ok (some (.jump kind label)) ∧
        slot = {
          word := .opened kind
          line
          pending := some ⟨label, line, Text.trimEndString raw⟩
        } := by
  unfold slot? at h
  split at h
  · next w hw => exact .inl ⟨w, content?_eq_some_iff.mp hw, (Option.some.inj h).symm⟩
  · next kind label hjump =>
      exact .inr ⟨kind, label, content?_eq_some_iff.mp hjump, (Option.some.inj h).symm⟩
  · contradiction

end Source

namespace Slot

/-- The address of the label that a slot waits for. -/
def target? (labels : LabelTable) (slot : Slot) : Option UInt16 :=
  slot.pending.bind fun jump => labels.address? jump.label

/-- The jump of a slot whose label is not defined. -/
def undefined? (labels : LabelTable) (slot : Slot) : Option PendingJump :=
  slot.pending.filter fun jump => (labels.address? jump.label).isNone

/-- The word of a slot, with its jump target if the label is defined. -/
def patch (labels : LabelTable) (slot : Slot) : Except EncodingError MicroWord :=
  match slot.target? labels with
  | some target => slot.word.setJumpTarget target.toNat
  | none => .ok slot.word

end Slot

/-- Going over a slot adds its word, and its jump if that has no target. -/
theorem Resolved.add_eq (labels : LabelTable) (r : Resolved) (slot : Slot) :
    r.add labels slot = (slot.patch labels).map fun word =>
      { words := r.words.push word
        undefined := r.undefined ++ (slot.undefined? labels).toArray } := by
  unfold add Slot.patch Slot.target? Slot.undefined?
  cases slot.pending with
  | none => simp [Except.map]
  | some jump =>
      cases haddress : labels.address? jump.label with
      | none => simp [Except.map, Option.filter_some, haddress]
      | some target =>
          simp only [Option.bind_some, Option.filter_some, haddress, Option.isNone_some,
            Bool.false_eq_true, if_false, Option.toArray_none, Array.append_empty]
          cases slot.word.setJumpTarget target.toNat <;> rfl

/-- The one pass over the slots patches them and, beside that, collects the jumps without a target. -/
theorem Resolved.foldlM_add (labels : LabelTable) (slots : List Slot) (r : Resolved) :
    slots.foldlM (add labels) r = (slots.mapM (Slot.patch labels)).map fun words =>
      { words := r.words ++ words.toArray
        undefined := r.undefined ++ (slots.filterMap (Slot.undefined? labels)).toArray } := by
  induction slots generalizing r with
  | nil => simp [pure, Except.pure, Except.map]
  | cons slot slots ih =>
      rw [List.foldlM_cons, List.mapM_cons, add_eq]
      cases slot.patch labels with
      | error e => rfl
      | ok word =>
          show slots.foldlM (add labels) _ = _
          rw [ih]
          cases slots.mapM (Slot.patch labels) with
          | error e => rfl
          | ok words =>
              cases hslot : slot.undefined? labels <;>
                simp [Except.map, bind, Except.bind, pure, Except.pure, hslot]

namespace Slot

/-- Resolving the slots is patching all of them, and then looking for jumps without a target. -/
theorem resolve_eq (labels : LabelTable) (slots : List Slot) :
    resolve labels slots = (do
      let words ← (slots.mapM (patch labels)).mapError .encoding
      match slots.filterMap (undefined? labels) with
      | [] => return words
      | jumps => throw (.undefinedLabels jumps)) := by
  unfold resolve
  rw [Resolved.foldlM_add]
  cases slots.mapM (patch labels) with
  | error e => rfl
  | ok words =>
      cases slots.filterMap (undefined? labels) with
      | nil => simp [Except.map, Except.mapError, bind, Except.bind]
      | cons jump jumps => simp [Except.map, Except.mapError, bind, Except.bind]

/-- The slots are resolved exactly when none waits for an undefined label and each can be
patched. -/
theorem resolve_eq_ok_iff {labels : LabelTable} {slots : List Slot} {words : List MicroWord} :
    resolve labels slots = .ok words ↔
      slots.mapM (patch labels) = .ok words ∧ ∀ slot ∈ slots, slot.undefined? labels = none := by
  rw [resolve_eq, bind_eq_ok_iff]
  constructor
  · rintro ⟨words', hpatch, hrest⟩
    rw [mapError_eq_ok_iff] at hpatch
    split at hrest
    · next hnone =>
        obtain rfl := Except.ok.inj hrest
        exact ⟨hpatch, List.filterMap_eq_nil_iff.mp hnone⟩
    · contradiction
  · rintro ⟨hpatch, hnone⟩
    refine ⟨words, mapError_eq_ok_iff.mpr hpatch, ?_⟩
    rw [List.filterMap_eq_nil_iff.mpr hnone]
    rfl

/-- The packer is blamed exactly when a slot cannot be patched. -/
theorem resolve_eq_encoding_iff {labels : LabelTable} {slots : List Slot} {e : EncodingError} :
    resolve labels slots = .error (.encoding e) ↔ slots.mapM (patch labels) = .error e := by
  rw [resolve_eq, bind_eq_error_iff]
  constructor
  · rintro (hpatch | ⟨words, -, hrest⟩)
    · obtain ⟨e', he', heq⟩ := mapError_eq_error_iff.mp hpatch
      rw [he', AsmError.encoding.inj heq]
    · split at hrest
      · contradiction
      · exact nomatch Except.error.inj hrest
  · intro hpatch
    exact .inl (mapError_eq_error_iff.mpr ⟨e, hpatch, rfl⟩)

/-- Apart from the packer, only undefined labels are in the way. -/
theorem resolve_eq_error {labels : LabelTable} {slots : List Slot} {e : AsmError}
    (h : resolve labels slots = .error e) :
    (∃ cause, e = .encoding cause) ∨ ∃ jumps, e = .undefinedLabels jumps := by
  rw [resolve_eq] at h
  rcases bind_eq_error_iff.mp h with hpatch | ⟨words, -, hrest⟩
  · obtain ⟨cause, -, rfl⟩ := mapError_eq_error_iff.mp hpatch
    exact .inl ⟨cause, rfl⟩
  · split at hrest
    · contradiction
    · exact .inr ⟨_, (Except.error.inj hrest).symm⟩

/-- A slot without a known target keeps its word. -/
theorem patch_of_target?_eq_none {labels : LabelTable} {slot : Slot}
    (h : slot.target? labels = none) : slot.patch labels = .ok slot.word := by
  rw [patch, h]

/-- A jump is patched with the address of its label, which must have at most eight bits. -/
theorem patch_jump {labels : LabelTable} {kind : JumpKind} {line : Nat} {jump : PendingJump}
    {address : UInt16} (h : labels.address? jump.label = some address) :
    patch labels { word := .opened kind, line, pending := some jump } =
      MicroWord.jump kind address.toNat := by
  have htarget : target? labels { word := .opened kind, line, pending := some jump } =
      some address := h
  rw [patch, htarget, MicroWord.jump_eq]
  exact MicroWord.setJumpTarget_eq (MicroWord.jumpKind?_opened kind) _

end Slot

/-! ## jumps -/

namespace Draft

variable {d : Draft} {lines : List String}

/-- The slots of a draft are those of the lines that give a word. -/
theorem Reads.mem_slots_iff (hd : d.Reads lines) {slot : Slot} :
    slot ∈ d.slots.toList ↔ ∃ i raw, lines[i]? = some raw ∧ slot? raw (i + 1) = some slot := by
  rw [hd.slots, mem_gather_iff]

/-- A jump to a line with 256 words or more before it cannot be patched, any other one can. -/
theorem Reads.patch_jump (hd : d.Reads lines) (hwf : WellFormed lines)
    (hfits : wordCount lines ≤ 256) {kind : JumpKind} {line j : Nat} {jump : PendingJump}
    (hj : Holds lines j (.label jump.label)) :
    Slot.patch d.labels { word := .opened kind, line, pending := some jump } =
      MicroWord.jump kind (addressAt lines j) := by
  rw [Slot.patch_jump ((hd.address?_eq_some_iff hwf).mpr ⟨j, hj, rfl⟩),
    toNat_ofNat_addressAt hfits]

/-- All jumps are resolved exactly when they land. -/
theorem Reads.exists_resolve_iff (hd : d.Reads lines) (hwf : WellFormed lines)
    (hfits : wordCount lines ≤ 256) :
    (∃ words, Slot.resolve d.labels d.slots.toList = .ok words) ↔ JumpsLand lines := by
  constructor
  · rintro ⟨words, h⟩ i kind label ⟨raw, hraw, hparse⟩
    obtain ⟨hpatch, hdefined⟩ := Slot.resolve_eq_ok_iff.mp h
    have hmem := hd.mem_slots_iff.mpr ⟨i, raw, hraw, slot?_jump hparse (i + 1)⟩
    have hsome : d.labels.address? label ≠ none := by
      intro hnone
      have := hdefined _ hmem
      simp [Slot.undefined?, hnone] at this
    obtain ⟨address, haddress⟩ := Option.ne_none_iff_exists'.mp hsome
    obtain ⟨j, hj, -⟩ := (hd.address?_eq_some_iff hwf).mp haddress
    obtain ⟨w, hw⟩ := exists_mapM_eq_ok_iff.mp ⟨words, hpatch⟩ _ hmem
    rw [hd.patch_jump hwf hfits hj, MicroWord.jump_eq] at hw
    refine ⟨j, hj, ?_⟩
    by_cases hlt : addressAt lines j < 256
    · omega
    · exact nomatch (if_neg hlt).symm.trans hw
  · intro hland
    have hslots : ∀ slot ∈ d.slots.toList,
        (∃ w, slot.patch d.labels = .ok w) ∧ slot.undefined? d.labels = none := by
      intro slot hmem
      obtain ⟨i, raw, hraw, hslot⟩ := hd.mem_slots_iff.mp hmem
      rcases slot?_cases hslot with ⟨w, -, rfl⟩ | ⟨kind, label, hparse, rfl⟩
      · exact ⟨⟨w, Slot.patch_of_target?_eq_none rfl⟩, rfl⟩
      · obtain ⟨j, hj, hle⟩ := hland i kind label ⟨raw, hraw, hparse⟩
        have hlt : addressAt lines j < 256 := by omega
        refine ⟨⟨(MicroWord.opened kind).aimed (addressAt lines j), ?_⟩, ?_⟩
        · rw [hd.patch_jump hwf hfits hj, MicroWord.jump_eq, if_pos hlt]
        · have haddress := (hd.address?_eq_some_iff hwf).mpr ⟨j, hj, rfl⟩
          simp [Slot.undefined?, haddress]
    obtain ⟨words, hwords⟩ := exists_mapM_eq_ok_iff.mpr fun slot hmem => (hslots slot hmem).1
    exact ⟨words, Slot.resolve_eq_ok_iff.mpr ⟨hwords, fun slot hmem => (hslots slot hmem).2⟩⟩

/-- Resolving the jumps blames the packer exactly when a jump goes past the end, and then always for
the same reason. -/
theorem Reads.resolve_eq_encoding_iff (hd : d.Reads lines) (hwf : WellFormed lines)
    (hfits : wordCount lines ≤ 256) {e : EncodingError} :
    Slot.resolve d.labels d.slots.toList = .error (.encoding e) ↔
      e = .overflow 256 8 ∧ JumpPastEnd lines := by
  have hreason : ∀ e, d.slots.toList.mapM (Slot.patch d.labels) = .error e →
      e = .overflow 256 8 ∧ JumpPastEnd lines := by
    intro e h
    obtain ⟨slot, hmem, he⟩ := exists_mem_of_mapM_eq_error h
    obtain ⟨i, raw, hraw, hslot⟩ := hd.mem_slots_iff.mp hmem
    rcases slot?_cases hslot with ⟨w, -, rfl⟩ | ⟨kind, label, hparse, rfl⟩
    · exact nomatch (Slot.patch_of_target?_eq_none rfl).symm.trans he
    · cases haddress : d.labels.address? label with
      | none => simp [Slot.patch, Slot.target?, haddress] at he
      | some address =>
          obtain ⟨j, hj, -⟩ := (hd.address?_eq_some_iff hwf).mp haddress
          have hle := addressAt_le lines j
          rw [hd.patch_jump hwf hfits hj, MicroWord.jump_eq] at he
          by_cases hlt : addressAt lines j < 256
          · exact nomatch (if_pos hlt).symm.trans he
          · have hend : addressAt lines j = 256 := by omega
            rw [if_neg hlt, hend] at he
            exact ⟨(Except.error.inj he).symm, i, kind, label, j, ⟨raw, hraw, hparse⟩, hj, hend⟩
  rw [Slot.resolve_eq_encoding_iff]
  constructor
  · exact hreason e
  · rintro ⟨rfl, i, kind, label, j, ⟨raw, hraw, hparse⟩, hj, hend⟩
    have hmem := hd.mem_slots_iff.mpr ⟨i, raw, hraw, slot?_jump hparse (i + 1)⟩
    rcases ok_or_error (d.slots.toList.mapM (Slot.patch d.labels)) with hok | ⟨e, he⟩
    · obtain ⟨w, hw⟩ := exists_mapM_eq_ok_iff.mp hok _ hmem
      rw [hd.patch_jump hwf hfits hj, MicroWord.jump_eq, hend] at hw
      exact nomatch hw
    · rw [he, (hreason e he).1]

/-- The word of a line stands at the address of the line. -/
theorem Reads.getElem?_resolve (hd : d.Reads lines) {words : List MicroWord}
    (h : Slot.resolve d.labels d.slots.toList = .ok words) {i : Nat} {raw : String} {slot : Slot}
    (hraw : lines[i]? = some raw) (hslot : slot? raw (i + 1) = some slot) :
    ∃ w, words[addressAt lines i]? = some w ∧ slot.patch d.labels = .ok w := by
  have hpatch := (Slot.resolve_eq_ok_iff.mp h).1
  rw [hd.slots] at hpatch
  exact getElem?_of_mapM hpatch (getElem?_gather_slot? hraw hslot)

/-- Every slot gives one word. -/
theorem Reads.length_resolve (hd : d.Reads lines) {words : List MicroWord}
    (h : Slot.resolve d.labels d.slots.toList = .ok words) : words.length = wordCount lines := by
  rw [length_of_mapM (Slot.resolve_eq_ok_iff.mp h).1, hd.slots, length_gather_slot?]

/-! ## opcodes -/

/-- The cheapest patterns stand in the order of their lines. -/
theorem Reads.pairwise_cheapest (hd : d.Reads lines) (opcode : UInt8) :
    (d.patterns.cheapest opcode).Pairwise fun p q => p.line < q.line := by
  have hgather : (d.patterns.patterns.map fun p => (p.text.toList, p.entry, p.line)).Pairwise
      fun x y => x.2.2 < y.2.2 := by
    rw [hd.patterns]
    refine pairwise_gather (fun raw a n x hx => ?_) lines
    obtain ⟨text, -, rfl⟩ := Option.map_eq_some_iff.mp hx
    rfl
  exact (List.pairwise_map.mp hgather).sublist (d.patterns.cheapest_sublist opcode)

/-- The cheapest patterns are those that the cheapest lines declare, at their addresses. -/
theorem Reads.exists_cheapest_iff (hd : d.Reads lines) {opcode : UInt8} {i : Nat} :
    (∃ p ∈ d.patterns.cheapest opcode, p.line = i + 1 ∧ p.entry = .ofNat (addressAt lines i)) ↔
      Cheapest lines opcode i := by
  constructor
  · rintro ⟨p, hp, hline, -⟩
    obtain ⟨hmem, hmatch, hleast⟩ := PatternSet.mem_cheapest_iff.mp hp
    obtain ⟨i', hi', -, hline'⟩ := hd.exists_pattern_iff.mp ⟨p, hmem, rfl, rfl, rfl⟩
    obtain rfl : i' = i := by omega
    refine ⟨_, hi', hmatch, fun j other hj hother => ?_⟩
    obtain ⟨q, hq, rfl, -⟩ := hd.exists_pattern_iff.mpr ⟨j, hj, rfl, rfl⟩
    exact hleast q hq hother
  · rintro ⟨text, hi, hmatch, hleast⟩
    obtain ⟨p, hp, rfl, hentry, hline⟩ := hd.exists_pattern_iff.mpr ⟨i, hi, rfl, rfl⟩
    refine ⟨p, PatternSet.mem_cheapest_iff.mpr ⟨hp, hmatch, fun q hq hqm => ?_⟩, hline, hentry⟩
    obtain ⟨j, hj, -⟩ := hd.exists_pattern_iff.mp ⟨q, hq, rfl, rfl, rfl⟩
    exact hleast j _ hj hqm

/-- A cheapest pattern comes from a cheapest line, which declares it. -/
theorem Reads.exists_line_of_mem_cheapest (hd : d.Reads lines) {opcode : UInt8} {p : OpcodePattern}
    (hp : p ∈ d.patterns.cheapest opcode) :
    ∃ i, Cheapest lines opcode i ∧ Declares lines i p.text.toList ∧ p.line = i + 1 ∧
      p.entry = .ofNat (addressAt lines i) := by
  obtain ⟨i, hi, hentry, hline⟩ := hd.exists_pattern_iff.mp
    ⟨p, (PatternSet.mem_cheapest_iff.mp hp).1, rfl, rfl, rfl⟩
  exact ⟨i, hd.exists_cheapest_iff.mp ⟨p, hp, hline, hentry⟩, hi, hline, hentry⟩

/-- The entry address of an opcode is that of the line which decodes it. -/
theorem Reads.entry?_eq_some_iff (hd : d.Reads lines) {opcode : UInt8} {entry : UInt16} :
    d.patterns.entry? opcode = some entry ↔
      ∃ i, Decodes lines opcode i ∧ entry = .ofNat (addressAt lines i) := by
  have hordered := hd.pairwise_cheapest opcode
  rw [PatternSet.entry?, Option.map_eq_some_iff]
  cases hcheap : d.patterns.cheapest opcode with
  | nil =>
      refine ⟨fun ⟨p, hp, _⟩ => (nomatch hp), fun ⟨i, hi, _⟩ => ?_⟩
      obtain ⟨p, hp, -⟩ := hd.exists_cheapest_iff.mpr hi.1
      rw [hcheap] at hp
      exact absurd hp List.not_mem_nil
  | cons first rest =>
      rw [hcheap, List.pairwise_cons] at hordered
      have hfirst : first ∈ d.patterns.cheapest opcode := by rw [hcheap]; exact List.mem_cons_self
      obtain ⟨k, hk, -, hline, hentry⟩ := hd.exists_line_of_mem_cheapest hfirst
      -- no other cheapest line stands before that of the first pattern
      have hleast : ∀ j, Cheapest lines opcode j → k ≤ j := by
        intro j hj
        obtain ⟨q, hq, hqline, -⟩ := hd.exists_cheapest_iff.mpr hj
        rw [hcheap, List.mem_cons] at hq
        rcases hq with rfl | hq
        · omega
        · have := hordered.1 q hq
          omega
      constructor
      · rintro ⟨p, hp, rfl⟩
        obtain rfl := Option.some.inj hp
        exact ⟨k, ⟨hk, fun j hj hcheapest => absurd (hleast j hcheapest) (by omega)⟩, hentry⟩
      · rintro ⟨i, ⟨hi, hnone⟩, rfl⟩
        have hle := hleast i hi
        obtain rfl : k = i := by
          by_contra hne
          exact hnone k (by omega) hk
        exact ⟨first, rfl, hentry⟩

/-- An opcode has at most one cheapest pattern exactly when it has at most one cheapest line. -/
theorem Reads.length_cheapest_le_one_iff (hd : d.Reads lines) {opcode : UInt8} :
    (d.patterns.cheapest opcode).length ≤ 1 ↔
      ∀ i j, Cheapest lines opcode i → Cheapest lines opcode j → i = j := by
  constructor
  · intro hlen i j hi hj
    obtain ⟨p, hp, hpline, -⟩ := hd.exists_cheapest_iff.mpr hi
    obtain ⟨q, hq, hqline, -⟩ := hd.exists_cheapest_iff.mpr hj
    obtain rfl : p = q := by
      rcases hcheap : d.patterns.cheapest opcode with _ | ⟨first, _ | ⟨second, rest⟩⟩
      · rw [hcheap] at hp; exact absurd hp List.not_mem_nil
      · rw [hcheap, List.mem_singleton] at hp hq
        rw [hp, hq]
      · rw [hcheap, List.length_cons, List.length_cons] at hlen
        omega
    omega
  · intro h
    have hordered := hd.pairwise_cheapest opcode
    rcases hcheap : d.patterns.cheapest opcode with _ | ⟨first, _ | ⟨second, rest⟩⟩
    · exact Nat.zero_le 1
    · exact Nat.le_refl 1
    · have hmem : ∀ p, p = first ∨ p = second → p ∈ d.patterns.cheapest opcode := by
        rintro p (rfl | rfl) <;> simp [hcheap]
      obtain ⟨i, hi, -, hiline, -⟩ := hd.exists_line_of_mem_cheapest (hmem first (.inl rfl))
      obtain ⟨j, hj, -, hjline, -⟩ := hd.exists_line_of_mem_cheapest (hmem second (.inr rfl))
      have heq := h i j hi hj
      rw [hcheap, List.pairwise_cons] at hordered
      have hlt := hordered.1 second List.mem_cons_self
      omega

/-- There is a decode table unless ties are refused and the source is ambiguous. -/
theorem Reads.exists_decodeTable_iff (hd : d.Reads lines) {config : Config} :
    (∃ t, d.decodeTable config lines = .ok t) ↔
      (config.tieBreak = .reject → Unambiguous lines) := by
  simp only [decodeTable, mapError_eq_ok_iff, PatternSet.exists_decodeTable_iff,
    hd.length_cheapest_le_one_iff]
  exact Iff.rfl

/-- A decode table is refused as an error of a line, and not for the packer's sake. -/
theorem decodeTable_eq_error {config : Config} {e : AsmError}
    (h : d.decodeTable config lines = .error e) :
    ∃ line text cause, e = .source line text cause ∧ cause.kind ≠ .encodingOverflow := by
  obtain ⟨ambiguity, -, rfl⟩ := mapError_eq_error_iff.mp h
  exact ⟨_, _, ambiguity.toLineError, rfl, fun hkind => nomatch hkind⟩

/-- The decode table gives an opcode the address of the line which decodes it. -/
theorem Reads.get?_decodeTable_eq_some_iff (hd : d.Reads lines) {config : Config} {t : DecodeTable}
    (ht : d.decodeTable config lines = .ok t) {opcode : UInt8} {entry : UInt16} :
    t.get? opcode = some entry ↔
      ∃ i, Decodes lines opcode i ∧ entry = .ofNat (addressAt lines i) := by
  rw [PatternSet.get?_of_decodeTable (mapError_eq_ok_iff.mp ht), hd.entry?_eq_some_iff]

/-- The entries of the decode table are the addresses of the lines which decode an opcode. -/
theorem Reads.mem_decodeTable_iff (hd : d.Reads lines) {config : Config} {t : DecodeTable}
    (ht : d.decodeTable config lines = .ok t) {entry : UInt16} :
    some entry ∈ t.entries ↔
      ∃ opcode i, Decodes lines opcode i ∧ entry = .ofNat (addressAt lines i) := by
  simp only [PatternSet.mem_entries_of_decodeTable (mapError_eq_ok_iff.mp ht),
    hd.get?_decodeTable_eq_some_iff ht]

/-- The decode table is encoded exactly when its entries land. -/
theorem Reads.exists_words_iff (hd : d.Reads lines) (hfits : wordCount lines ≤ 256)
    {config : Config} {t : DecodeTable} (ht : d.decodeTable config lines = .ok t) :
    (∃ words, t.words = .ok words) ↔ EntriesLand lines := by
  simp only [DecodeTable.words_eq_ok_iff]
  constructor
  · rintro ⟨words, hsmall, -⟩ opcode i hi
    have hlt := hsmall _ ((hd.mem_decodeTable_iff ht).mpr ⟨opcode, i, hi, rfl⟩)
    rw [toNat_ofNat_addressAt hfits] at hlt
    omega
  · intro hland
    refine ⟨_, fun entry hentry => ?_, rfl⟩
    obtain ⟨opcode, i, hi, rfl⟩ := (hd.mem_decodeTable_iff ht).mp hentry
    rw [toNat_ofNat_addressAt hfits]
    exact Nat.lt_succ_of_le (hland opcode i hi)

/-- Encoding the decode table fails exactly when an opcode is decoded to an address past the end,
and then always for the same reason. -/
theorem Reads.words_eq_error_iff (hd : d.Reads lines) (hfits : wordCount lines ≤ 256)
    {config : Config} {t : DecodeTable} (ht : d.decodeTable config lines = .ok t)
    {e : EncodingError} :
    t.words = .error e ↔ e = .overflow 256 8 ∧ EntryPastEnd lines := by
  have hreason : ∀ e, t.words = .error e → e = .overflow 256 8 ∧ EntryPastEnd lines := by
    intro e h
    obtain ⟨entry, hentry, hge, rfl⟩ := DecodeTable.exists_entry_of_words_eq_error h
    obtain ⟨opcode, i, hi, rfl⟩ := (hd.mem_decodeTable_iff ht).mp hentry
    have hle := addressAt_le lines i
    rw [toNat_ofNat_addressAt hfits] at hge ⊢
    obtain hend : addressAt lines i = 256 := by omega
    exact ⟨by rw [hend], opcode, i, hi, hend⟩
  refine ⟨hreason e, ?_⟩
  rintro ⟨rfl, opcode, i, hi, hend⟩
  rcases ok_or_error t.words with hok | ⟨e, he⟩
  · have := (hd.exists_words_iff hfits ht).mp hok opcode i hi
    omega
  · rw [he, (hreason e he).1]

end Draft

end Microcode
