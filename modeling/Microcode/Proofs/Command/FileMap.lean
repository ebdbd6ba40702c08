import Mathlib.Logic.Function.Basic
import Microcode.Command.FileTree
import Microcode.Proofs.Result

/-!
# Microcode.Proofs.Command.FileMap

Files as a map from places to contents.

A command knows files by their paths, and several paths may lead to one place.  `FileMap` is what a
command may count on, whatever else can go wrong with a file: reading changes nothing, a write either
changes nothing or puts the bytes at the place of the path, and what was just written can be removed.

The file tree is such a map (`FileTree.fileMap`).  Its paths are followed through the directories of
the tree, so that a write could change where they lead.  It does not: a write puts a file where no
directory was, and paths go through directories only (`FileTree.locate_set`).
-/

namespace Microcode

open Result

/-! ## texts -/

/-- Bytes stand for a text exactly when they are its UTF-8 form. -/
theorem textOfBytes_eq_ok_iff {bytes : ByteArray} {text : String} :
    textOfBytes bytes = .ok text ↔ bytes = text.toUTF8 := by
  unfold textOfBytes String.fromUTF8?
  constructor
  · intro h
    split at h
    · next found hfound =>
      obtain rfl := Except.ok.inj h
      split at hfound
      · obtain rfl := Option.some.inj hfound
        rfl
      · cases hfound
    · cases h
  · rintro rfl
    rw [String.toUTF8_eq_toByteArray, dif_pos text.isValidUTF8]
    rfl

/-! ## maps of files -/

/-- A way to see the states of a file system as maps from places to what stands there. -/
structure FileMap (σ ι : Type) [FileAccess (StateM σ)] [DecidableEq ι] where
  /-- The place that a path leads to. -/
  place : String → ι
  /-- What stands at a place. -/
  node? : σ → ι → Option FileNode
  readBytes_state (path : String) (s : σ) :
    ((FileAccess.readBytes path : StateM σ _).run s).2 = s
  node?_of_readBytes {path : String} {s : σ} {bytes : ByteArray} :
    ((FileAccess.readBytes path : StateM σ _).run s).1 = .ok bytes →
      node? s (place path) = some (.file bytes)
  writeBytes_state {path : String} {bytes : ByteArray} {s s' : σ} {fault : FileFault} :
    (FileAccess.writeBytes path bytes : StateM σ _).run s = (.error fault, s') → s' = s
  node?_of_writeBytes {path : String} {bytes : ByteArray} {s s' : σ} :
    (FileAccess.writeBytes path bytes : StateM σ _).run s = (.ok (), s') →
      node? s' = Function.update (node? s) (place path) (some (.file bytes))
  /-- What was just written can be removed. -/
  node?_removeFile {path : String} {bytes : ByteArray} {s s' : σ} :
    (FileAccess.writeBytes path bytes : StateM σ _).run s = (.ok (), s') →
      node? ((FileAccess.removeFile path : StateM σ _).run s').2 =
        Function.update (node? s') (place path) none

namespace FileMap

variable {σ ι : Type} [FileAccess (StateM σ)] [DecidableEq ι] (fs : FileMap σ ι)

/-- The file at a path has the given text. -/
def Holds (s : σ) (path text : String) : Prop :=
  fs.node? s (fs.place path) = some (.file text.toUTF8)

/-- A file has one text. -/
theorem Holds.unique {fs : FileMap σ ι} {s : σ} {path text text' : String}
    (h : fs.Holds s path text) (h' : fs.Holds s path text') : text = text' := by
  have hbytes : text.toUTF8 = text'.toUTF8 :=
    FileNode.file.inj (Option.some.inj (h.symm.trans h'))
  exact Except.ok.inj ((textOfBytes_eq_ok_iff.mpr rfl).symm.trans (textOfBytes_eq_ok_iff.mpr hbytes))

include fs in
/-- Reading a text changes nothing. -/
theorem run_readText (path : String) (s : σ) :
    (readText path : StateM σ _).run s =
      (((FileAccess.readBytes path : StateM σ _).run s).1 >>= textOfBytes, s) := by
  rw [readText, StateT.run_bind]
  exact congrArg (Prod.mk _) (fs.readBytes_state path s)

include fs in
theorem readText_state {path : String} {s s' : σ} {result : Except FileFault String}
    (h : (readText path : StateM σ _).run s = (result, s')) : s' = s := by
  rw [fs.run_readText] at h
  exact (Prod.mk.inj h).2.symm

/-- A text that was written is the text of the file. -/
theorem holds_of_writeText {path text : String} {s s' : σ}
    (h : (writeText path text : StateM σ _).run s = (.ok (), s')) : fs.Holds s' path text := by
  rw [Holds, fs.node?_of_writeBytes h, Function.update_self]

/-- What is read is the text of the file. -/
theorem holds_of_readText {path text : String} {s s' : σ}
    (h : (readText path : StateM σ _).run s = (.ok text, s')) : fs.Holds s path text := by
  rw [fs.run_readText] at h
  obtain ⟨bytes, hbytes, htext⟩ := bind_eq_ok_iff.mp (Prod.mk.inj h).1
  rw [Holds, ← textOfBytes_eq_ok_iff.mp htext]
  exact fs.node?_of_readBytes hbytes

end FileMap

/-! ## the file tree as a map -/

/-- The place that a path leads to. -/
def Path.place (p : Path) : Place := p.steps.foldl Place.step p.start

/-- What a path leads to, if all its steps but the last lead to the given directory. -/
def Path.target (p : Path) (parent : Place) : Target :=
  match p.steps.getLast? with
  | some (.down name) => .entry parent name p.slash
  | _ => .directory

namespace FileTree

variable {t t' : FileTree} {p q : Place} {node : Option FileNode} {path : String}

theorem get?_set (h : q.names ≠ []) : (t.set q node).get? = Function.update t.get? q node := by
  funext p
  by_cases hp : p = q
  · subst hp
    simp [get?, set, h]
  · simp [get?, set, hp]

theorem names_child (p : Place) (name : String) : (p.child name).names ≠ [] := by
  simp [Place.child]

/-- A step is taken to where it leads; a step down must lead to a directory. -/
theorem enter_eq_ok_iff {step : Step} :
    t.enter p step = .ok q ↔ p.step step = q ∧ ∀ name, step = .down name →
      name.utf8ByteSize ≤ maxNameBytes ∧ t.get? q = some .directory := by
  cases step with
  | stay => simp [enter, pure, Except.pure]
  | up => simp [enter, pure, Except.pure]
  | down name =>
      by_cases hname : name.utf8ByteSize ≤ maxNameBytes
      · have henter : t.enter p (.down name) = .ok q ↔
            p.child name = q ∧ t.get? (p.child name) = some .directory := by
          simp only [enter, lookup, if_neg (Nat.not_lt.mpr hname), Place.step]
          rcases t.get? (p.child name) with _ | _ | _ <;> simp [bind, Except.bind, pure, Except.pure]
        rw [henter]
        constructor
        · rintro ⟨rfl, hdir⟩
          refine ⟨rfl, fun name' heq => ?_⟩
          obtain rfl := Step.down.inj heq
          exact ⟨hname, hdir⟩
        · rintro ⟨rfl, hdown⟩
          exact ⟨rfl, (hdown name rfl).2⟩
      · simp [enter, lookup, hname, Nat.lt_of_not_le hname, bind, Except.bind]

/-- A path that can be followed leads to its place. -/
theorem foldlM_enter {steps : List Step} (h : steps.foldlM t.enter p = .ok q) :
    steps.foldl Place.step p = q := by
  induction steps generalizing p with
  | nil => exact Except.ok.inj h
  | cons step steps ih =>
      rw [List.foldlM_cons] at h
      obtain ⟨next, hnext, hrest⟩ := bind_eq_ok_iff.mp h
      rw [List.foldl_cons, (enter_eq_ok_iff.mp hnext).1]
      exact ih hrest

/-- A change of what is no directory leaves the paths that can be followed. -/
theorem foldlM_enter_set {steps : List Step} {place : Place}
    (h : steps.foldlM t.enter p = .ok place) (hnames : q.names ≠ [])
    (hq : t.get? q ≠ some .directory) :
    steps.foldlM (t.set q node).enter p = .ok place := by
  -- Only success is kept: a step to `q` fails before and after, but perhaps with another fault.
  induction steps generalizing p with
  | nil => exact h
  | cons step steps ih =>
      rw [List.foldlM_cons] at h ⊢
      obtain ⟨next, hnext, hrest⟩ := bind_eq_ok_iff.mp h
      obtain ⟨hstep, hdown⟩ := enter_eq_ok_iff.mp hnext
      have hkept : (t.set q node).enter p step = .ok next := by
        refine enter_eq_ok_iff.mpr ⟨hstep, fun name hname => ?_⟩
        obtain ⟨hsize, hdir⟩ := hdown name hname
        have hne : next ≠ q := by
          rintro rfl
          exact hq hdir
        rw [get?_set hnames, Function.update_of_ne hne]
        exact ⟨hsize, hdir⟩
      exact bind_eq_ok_iff.mpr ⟨next, hkept, ih hrest⟩

/-- A path is followed when it is neither empty nor too long and all its steps but the last can be
taken. -/
theorem locate_eq_ok_iff {target : Target} :
    t.locate path = .ok target ↔ path ≠ "" ∧ path.utf8ByteSize ≤ maxPathBytes ∧
      ∃ parent, (Path.ofString path).steps.dropLast.foldlM t.enter (Path.ofString path).start =
        .ok parent ∧ (Path.ofString path).target parent = target := by
  by_cases hempty : path = ""
  · simp [locate, hempty, bind, Except.bind, throw, throwThe, MonadExceptOf.throw]
  by_cases hsize : path.utf8ByteSize ≤ maxPathBytes
  · simp only [locate, beq_iff_eq, hempty, if_false, if_neg (Nat.not_lt.mpr hsize), bind_eq_ok_iff,
      ne_eq, not_false_eq_true, hsize, true_and]
    refine exists_congr fun parent => and_congr_right fun _ => ?_
    unfold Path.target
    rcases (Path.ofString path).steps.getLast? with _ | _ | _ | name <;> simp [pure, Except.pure]
  · simp [locate, hempty, hsize, Nat.lt_of_not_le hsize, bind, Except.bind]

/-- A path that can be followed leads to its place. -/
theorem place_of_locate {parent : Place} {name : String} {slash : Bool}
    (h : t.locate path = .ok (.entry parent name slash)) :
    (Path.ofString path).place = parent.child name := by
  obtain ⟨-, -, place, hplace, htarget⟩ := locate_eq_ok_iff.mp h
  unfold Path.target at htarget
  split at htarget
  · next last hlast =>
    obtain ⟨rfl, rfl, -⟩ := Target.entry.inj htarget
    rw [Path.place, ← List.dropLast_append_getLast? _ hlast, List.foldl_append, foldlM_enter hplace]
    rfl
  · cases htarget

/-- A change of what is no directory leaves where a path leads. -/
theorem locate_set {target : Target} (h : t.locate path = .ok target) (hnames : q.names ≠ [])
    (hq : t.get? q ≠ some .directory) : (t.set q node).locate path = .ok target := by
  obtain ⟨hempty, hsize, parent, hparent, htarget⟩ := locate_eq_ok_iff.mp h
  exact locate_eq_ok_iff.mpr ⟨hempty, hsize, parent, foldlM_enter_set hparent hnames hq, htarget⟩

theorem lookup_eq_ok_iff {name : String} :
    t.lookup p name = .ok node ↔
      name.utf8ByteSize ≤ maxNameBytes ∧ t.get? (p.child name) = node := by
  rw [lookup]
  split
  · next hname => simp [Nat.not_le.mpr hname]
  · next hname => simp [Nat.not_lt.mp hname]

/-- A file is read where there is one. -/
theorem readBytes_eq_ok_iff {bytes : ByteArray} :
    t.readBytes path = .ok bytes ↔ ∃ parent name, t.locate path = .ok (.entry parent name false) ∧
      name.utf8ByteSize ≤ maxNameBytes ∧ t.get? (parent.child name) = some (.file bytes) := by
  rw [readBytes, bind_eq_ok_iff]
  constructor
  · rintro ⟨target, htarget, hread⟩
    cases target with
    | directory => cases hread
    | entry parent name slash =>
        obtain ⟨node, hnode, hread⟩ := bind_eq_ok_iff.mp hread
        match node, slash, hread with
        | some (.file _), false, rfl =>
            exact ⟨parent, name, htarget, lookup_eq_ok_iff.mp hnode⟩
  · rintro ⟨parent, name, htarget, hnode⟩
    exact ⟨_, htarget, bind_eq_ok_iff.mpr ⟨_, lookup_eq_ok_iff.mpr hnode, rfl⟩⟩

/-- A file is written where there is no directory. -/
theorem writeBytes_eq_ok_iff {bytes : ByteArray} :
    t.writeBytes path bytes = .ok t' ↔ ∃ parent name,
      t.locate path = .ok (.entry parent name false) ∧ name.utf8ByteSize ≤ maxNameBytes ∧
      t.get? (parent.child name) ≠ some .directory ∧
      t.set (parent.child name) (some (.file bytes)) = t' := by
  rw [writeBytes, bind_eq_ok_iff]
  constructor
  · rintro ⟨target, htarget, hwrite⟩
    match target, hwrite with
    | .entry parent name false, hwrite =>
        obtain ⟨node, hnode, hwrite⟩ := bind_eq_ok_iff.mp hwrite
        obtain ⟨hname, rfl⟩ := lookup_eq_ok_iff.mp hnode
        refine ⟨parent, name, htarget, hname, ?_⟩
        split at hwrite
        · cases hwrite
        · next hne => exact ⟨hne, Except.ok.inj hwrite⟩
  · rintro ⟨parent, name, htarget, hname, hnode, rfl⟩
    refine ⟨_, htarget, bind_eq_ok_iff.mpr ⟨_, lookup_eq_ok_iff.mpr ⟨hname, rfl⟩, ?_⟩⟩
    split
    · next hdir => exact absurd hdir hnode
    · rfl

/-- A file that was just written can be removed. -/
theorem removeFile_of_writeBytes {bytes : ByteArray} (h : t.writeBytes path bytes = .ok t') :
    t'.removeFile path = t'.set (Path.ofString path).place none := by
  obtain ⟨parent, name, htarget, -, hnode, rfl⟩ := writeBytes_eq_ok_iff.mp h
  have hnames := names_child parent name
  have hfile : (t.set (parent.child name) (some (.file bytes))).get? (parent.child name) =
      some (.file bytes) := by
    rw [get?_set hnames, Function.update_self]
  rw [removeFile, locate_set htarget hnames hnode, place_of_locate htarget]
  simp only [hfile]

theorem run_writeBytes (t : FileTree) (path : String) (bytes : ByteArray) :
    (FileAccess.writeBytes path bytes : OnTree _).run t =
      match t.writeBytes path bytes with
      | .ok t' => (.ok (), t')
      | .error fault => (.error fault, t) :=
  rfl

theorem writeBytes_of_run {bytes : ByteArray}
    (h : (FileAccess.writeBytes path bytes : OnTree _).run t = (.ok (), t')) :
    t.writeBytes path bytes = .ok t' := by
  rw [run_writeBytes] at h
  split at h
  · next hwrite =>
    obtain ⟨-, rfl⟩ := Prod.mk.inj h
    exact hwrite
  · cases h

/-- The file tree is a map of files. -/
def fileMap : FileMap FileTree Place where
  place path := (Path.ofString path).place
  node? := get?
  readBytes_state _ _ := rfl
  node?_of_readBytes h := by
    obtain ⟨parent, name, htarget, -, hnode⟩ := readBytes_eq_ok_iff.mp h
    rw [place_of_locate htarget, hnode]
  writeBytes_state := by
    intro path bytes t t' fault h
    rw [run_writeBytes] at h
    split at h
    · cases h
    · exact (Prod.mk.inj h).2.symm
  node?_of_writeBytes := by
    intro path bytes t t' h
    obtain ⟨parent, name, htarget, -, -, rfl⟩ := writeBytes_eq_ok_iff.mp (writeBytes_of_run h)
    rw [get?_set (names_child parent name), place_of_locate htarget]
  node?_removeFile := by
    intro path bytes t t' h
    have hwrite := writeBytes_of_run h
    obtain ⟨parent, name, htarget, -⟩ := writeBytes_eq_ok_iff.mp hwrite
    have hnames : (Path.ofString path).place.names ≠ [] := by
      rw [place_of_locate htarget]
      exact names_child parent name
    change (t'.removeFile path).get? = _
    rw [removeFile_of_writeBytes hwrite, get?_set hnames]

/-! ## files in the working directory -/

/-- The path is the name of something in the working directory. -/
def IsName (name : String) : Prop :=
  name ≠ "" ∧ name.utf8ByteSize ≤ maxNameBytes ∧ Path.ofString name = ⟨{}, [.down name], false⟩

instance (name : String) : Decidable (IsName name) := inferInstanceAs (Decidable (_ ∧ _ ∧ _))

variable {name : String}

theorem IsName.place_eq (h : IsName name) : fileMap.place name = Place.child {} name :=
  congrArg Path.place h.2.2

theorem IsName.locate_eq (h : IsName name) (t : FileTree) :
    t.locate name = .ok (.entry {} name false) := by
  obtain ⟨hempty, hsize, hpath⟩ := h
  refine locate_eq_ok_iff.mpr ⟨hempty, Nat.le_trans hsize (by decide), {}, ?_⟩
  rw [hpath]
  exact ⟨rfl, rfl⟩

theorem run_readText_of_holds {text : String} (h : IsName name) (hnode : fileMap.Holds t name text) :
    (readText name : OnTree _).run t = (.ok text, t) := by
  have hread : ((FileAccess.readBytes name : OnTree _).run t).1 = .ok text.toUTF8 :=
    readBytes_eq_ok_iff.mpr ⟨{}, name, h.locate_eq t, h.2.1, h.place_eq ▸ hnode⟩
  rw [fileMap.run_readText, hread]
  exact congrArg (·, t) (textOfBytes_eq_ok_iff.mpr rfl)

theorem run_writeText_of_ne (h : IsName name) (text : String)
    (hnode : fileMap.node? t (fileMap.place name) ≠ some .directory) :
    (writeText name text : OnTree _).run t =
      (.ok (), t.set (Place.child {} name) (some (.file text.toUTF8))) := by
  have hwrite : t.writeBytes name text.toUTF8 =
      .ok (t.set (Place.child {} name) (some (.file text.toUTF8))) :=
    writeBytes_eq_ok_iff.mpr ⟨{}, name, h.locate_eq t, h.2.1, h.place_eq ▸ hnode, rfl⟩
  rw [writeText, run_writeBytes, hwrite]

theorem run_writeText_of_directory (h : IsName name) (text : String)
    (hnode : fileMap.node? t (fileMap.place name) = some .directory) :
    (writeText name text : OnTree _).run t = (.error .isDirectory, t) := by
  have hlookup : t.lookup {} name = .ok (some .directory) :=
    lookup_eq_ok_iff.mpr ⟨h.2.1, h.place_eq ▸ hnode⟩
  have hwrite : t.writeBytes name text.toUTF8 = .error .isDirectory := by
    rw [writeBytes, h.locate_eq t]
    change t.lookup {} name >>= _ = _
    rw [hlookup]
    rfl
  rw [writeText, run_writeBytes, hwrite]

end FileTree

end Microcode
