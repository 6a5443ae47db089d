import CMinusMinus.CommandLine.Directory
import CMinusMinus.Proofs.Code.Snapshot
import CMinusMinus.Proofs.Source.Conditions
import Mathlib

/-!
# Files of a directory

Writing a file that can be written changes what is in one place, and reading the path again gives what was
written. Adding an extension to the path of a file that can be read leads to another place.
-/

namespace CMinusMinus.CommandLine

/-! ## Places -/

namespace Place

theorem isBelow_self (place : Place) : place.isBelow place = false := by
  simp [isBelow]

theorem isBelow_iff {place other : Place} : place.isBelow other = true ↔
    place.anchor = other.anchor ∧ other.names.length < place.names.length ∧ other.names <+: place.names := by
  simp [isBelow, and_assoc]

theorem child_inj {place : Place} {name name' : String} : place.child name = place.child name' ↔ name = name' := by
  simp [child]

end Place

/-- Texts with the same bytes are the same. -/
theorem toUTF8_inj {s t : String} (h : s.toUTF8.data.toList = t.toUTF8.data.toList) : s = t := by
  have hs := Snapshot.fromUTF8?_toUTF8 s
  have ht := Snapshot.fromUTF8?_toUTF8 t
  exact Option.some.inj (hs.symm.trans ((congrArg (fun bytes => String.fromUTF8? ⟨bytes.toArray⟩) h).trans ht))

namespace Directory

variable {d d' : Directory} {place other : Place} {bytes : List UInt8} {path text : String}

/-! ## One place -/

theorem lookup_replace (files : List (Place × List UInt8)) (place other : Place) (bytes : List UInt8) :
    (files.map fun file => if file.1 = place then (place, bytes) else file).lookup other =
      if other = place then (files.lookup place).map fun _ => bytes else files.lookup other := by
  induction files with
  | nil => simp
  | cons file files ih =>
    obtain ⟨name, old⟩ := file
    rw [List.map_cons, List.lookup_cons, List.lookup_cons]
    by_cases hname : name = place
    · subst hname
      rw [if_pos rfl, List.lookup_cons, ih]
      by_cases hother : other = name
      · simp [hother]
      · simp [hother, beq_false_of_ne hother]
    · rw [if_neg hname, List.lookup_cons, ih]
      by_cases hother : other = place
      · simp [hother, beq_false_of_ne (Ne.symm hname)]
      · simp [hother]

theorem get?_put (d : Directory) (place other : Place) (bytes : List UInt8) :
    (d.put place bytes).get? other = if other = place then some bytes else d.get? other := by
  unfold put
  split
  · next hsome =>
    obtain ⟨old, hold⟩ := Option.isSome_iff_exists.1 hsome
    unfold get? at hold ⊢
    rw [lookup_replace, hold, Option.map_some]
  · next hnone =>
    have hnew : d.get? place = none := by simpa using hnone
    unfold get? at hnew ⊢
    rw [List.lookup_append, List.lookup_cons, List.lookup_nil]
    by_cases hother : other = place
    · simp [hother, hnew]
    · simp [hother, beq_false_of_ne hother]

/-- A new place may lie in directories that were not there. -/
theorem isDirectory_put (d : Directory) (place other : Place) (bytes : List UInt8) :
    (d.put place bytes).isDirectory other = (d.isDirectory other || place.isBelow other) := by
  unfold put isDirectory
  split
  · next hsome =>
    have hplaces : ∀ file : Place × List UInt8,
        (if file.1 = place then (place, bytes) else file).1 = file.1 := by
      intro file
      split
      · next h => exact h.symm
      · rfl
    obtain ⟨old, hold⟩ := Option.isSome_iff_exists.1 hsome
    obtain ⟨before, after, hfiles, -⟩ := List.lookup_eq_some_iff.1 hold
    simp only [List.any_map, Function.comp_def, hplaces]
    by_cases hbelow : place.isBelow other = true
    · have hany : d.files.any (fun file => file.1.isBelow other) = true :=
        List.any_eq_true.2 ⟨(place, old), by simp [hfiles], hbelow⟩
      simp [hany]
    · simp [hbelow]
  · simp [Bool.or_assoc]

/-- A directory lies in a directory. -/
theorem isDirectory_parent (h : d.isDirectory place = true) : d.isDirectory place.parent = true := by
  unfold Place.parent
  split
  · split <;> simp_all [isDirectory]
  · simp only [isDirectory, Bool.or_eq_true, List.any_eq_true] at h ⊢
    rcases h with hempty | ⟨file, hfile, hbelow⟩
    · contradiction
    · obtain ⟨hanchor, hlength, hprefix⟩ := Place.isBelow_iff.1 hbelow
      refine .inr ⟨file, hfile, Place.isBelow_iff.2 ⟨hanchor, ?_, (List.dropLast_prefix _).trans hprefix⟩⟩
      rw [List.length_dropLast]
      omega

/-! ## Following names -/

theorem enter_mono (hd : ∀ place, d.isDirectory place = true → d'.isDirectory place = true) {name : String}
    (h : d.enter place name = .ok other) : d'.enter place name = .ok other := by
  unfold enter at h ⊢
  split at h
  · next hplace => rw [if_pos (hd place hplace), h]
  · cases h

theorem locate_mono (hd : ∀ place, d.isDirectory place = true → d'.isDirectory place = true) {steps : List String}
    (h : d.locate path steps = .ok place) : d'.locate path steps = .ok place := by
  have hfold : ∀ {steps : List String} {start : Place}, steps.foldlM d.enter start = .ok place →
      steps.foldlM d'.enter start = .ok place := by
    intro steps
    induction steps with
    | nil => exact id
    | cons name steps ih =>
      intro start h
      rw [List.foldlM_cons] at h ⊢
      obtain ⟨next, hnext, h⟩ := bind_eq_ok h
      rw [enter_mono hd hnext]
      exact ih h
  unfold locate at h ⊢
  split at h
  · cases h
  · split at h
    · cases h
    · next hempty hlimit => rw [if_neg hempty, if_neg hlimit, hfold h]

theorem locate_concat {steps : List String} {name : String}
    (h : d.locate path (steps ++ [name]) = .ok place) :
    ∃ inner, d.enter inner name = .ok place ∧ steps.foldlM d.enter (.start path) = .ok inner := by
  unfold locate at h
  split at h
  · cases h
  · split at h
    · cases h
    · rw [List.foldlM_append] at h
      obtain ⟨inner, hinner, h⟩ := bind_eq_ok h
      obtain ⟨last, hlast, h⟩ := bind_eq_ok h
      cases h
      exact ⟨inner, hlast, hinner⟩

/-- Names that lead to a file and not to a directory are proper ones. -/
theorem enter_eq_child {name : String} (h : d.enter place name = .ok other)
    (hfile : d.isDirectory other = false) : other = place.child name := by
  unfold enter at h
  split at h
  · next hplace =>
    split at h
    · cases h
      rw [hplace] at hfile
      cases hfile
    · split at h
      · cases h
        rw [isDirectory_parent hplace] at hfile
        cases hfile
      · split at h
        · cases h
        · exact (Except.ok.inj h).symm
  · cases h

/-! ## Reading and writing -/

theorem readText_ok (h : d.readText path = .ok text) : ∃ place, d.locate path (readingSteps path) = .ok place ∧
    d.isDirectory place = false := by
  obtain ⟨place, hplace, h⟩ := bind_eq_ok h
  refine ⟨place, hplace, ?_⟩
  by_contra hdirectory
  rw [if_pos (by simpa using hdirectory)] at h
  cases h

theorem readText_eq (hplace : d.locate path (readingSteps path) = .ok place) (hfile : d.isDirectory place = false)
    (hbytes : d.get? place = some bytes) (htext : String.fromUTF8? ⟨bytes.toArray⟩ = some text) :
    d.readText path = .ok text := by
  simp only [readText, hplace, bind, Except.bind, hfile, hbytes, htext]
  rfl

theorem writeText_ok (h : d.writeText path text = .ok d') : ∃ place,
    d.locate path (writingSteps path) = .ok place ∧ d.isDirectory place = false ∧
    d' = d.put place text.toUTF8.data.toList := by
  obtain ⟨place, hplace, h⟩ := bind_eq_ok h
  by_cases hdirectory : d.isDirectory place = true
  · rw [if_pos hdirectory] at h
    cases h
  · rw [if_neg hdirectory] at h
    cases h
    exact ⟨place, hplace, by simpa using hdirectory, rfl⟩

theorem writeText_eq (hplace : d.locate path (writingSteps path) = .ok place)
    (hfree : d.isDirectory place = false) (text : String) :
    d.writeText path text = .ok (d.put place text.toUTF8.data.toList) := by
  simp only [writeText, hplace, bind, Except.bind, hfree]
  rfl

/-- Whether a path can be written does not depend on what is written. -/
theorem writeText_any (h : d.writeText path text = .ok d') (text' : String) :
    ∃ d'', d.writeText path text' = .ok d'' := by
  obtain ⟨place, hplace, hfree, -⟩ := writeText_ok h
  exact ⟨_, writeText_eq hplace hfree text'⟩

theorem isDirectory_of_locate_dot {steps : List String} (h : d.locate path (steps ++ ["."]) = .ok place) :
    d.isDirectory place = true := by
  obtain ⟨inner, henter, -⟩ := locate_concat h
  unfold enter at henter
  split at henter
  · next hinner =>
    rw [if_pos rfl] at henter
    cases henter
    exact hinner
  · cases henter

/-- What was written is read again. -/
theorem readText_writeText (h : d.writeText path text = .ok d') : d'.readText path = .ok text := by
  obtain ⟨place, hplace, hfile, rfl⟩ := writeText_ok h
  have hslash : endsInSlash path = false := by
    by_contra hslash
    rw [writingSteps, if_pos (by simpa using hslash)] at hplace
    rw [isDirectory_of_locate_dot hplace] at hfile
    cases hfile
  have hsteps : readingSteps path = writingSteps path := by
    simp [readingSteps, writingSteps, hslash]
  have hmono : ∀ other, d.isDirectory other = true →
      (d.put place text.toUTF8.data.toList).isDirectory other = true := by
    intro other hother
    rw [isDirectory_put, hother, Bool.true_or]
  have hplace' := locate_mono hmono hplace
  have hkept : (d.put place text.toUTF8.data.toList).isDirectory place = false := by
    rw [isDirectory_put, hfile, Place.isBelow_self, Bool.false_or]
  refine readText_eq (hsteps ▸ hplace') hkept ?_ (Snapshot.fromUTF8?_toUTF8 text)
  rw [get?_put, if_pos rfl]
  rfl

end Directory

/-! ## Extensions -/

/-- What follows the last slash of a path can be made longer. -/
theorem pathSteps_append {file extension : String} (hfile : file ≠ "") (hslash : endsInSlash file = false)
    (hextension : '/' ∉ extension.toList) : ∃ steps last, pathSteps file = steps ++ [last] ∧
      pathSteps (file ++ extension) = steps ++ [last ++ extension] := by
  have hsingle : ∀ {cs : List Char}, '/' ∉ cs → cs.splitOnP (· == '/') = [cs] := fun hcs =>
    List.splitOnP_eq_singleton fun c hc => beq_false_of_ne fun h => hcs (h ▸ hc)
  -- the path up to the last slash, and the name after it
  obtain ⟨front, last, hne, hsplit, hsplit'⟩ : ∃ (front : List (List Char)) (last : List Char), last ≠ [] ∧ file.toList.splitOnP (· == '/') = front ++ [last] ∧
      (file.toList ++ extension.toList).splitOnP (· == '/') = front ++ [last ++ extension.toList] := by
    by_cases hmem : '/' ∈ file.toList
    · obtain ⟨after, before, hsplit, hafter⟩ := List.eq_append_cons_of_mem (List.mem_reverse.2 hmem)
      rw [List.reverse_eq_iff, List.reverse_append, List.reverse_cons, List.append_assoc] at hsplit
      have hname : '/' ∉ after.reverse := fun h => hafter (List.mem_reverse.1 h)
      have hlonger : '/' ∉ after.reverse ++ extension.toList := by simpa using ⟨hafter, hextension⟩
      refine ⟨before.reverse.splitOnP (· == '/'), after.reverse, ?_, ?_, ?_⟩
      · intro hempty
        simp [endsInSlash, hsplit, hempty] at hslash
      · rw [hsplit, List.singleton_append, List.splitOnP_append_cons _ _ rfl, hsingle hname]
      · rw [hsplit, List.append_assoc, List.append_assoc, List.singleton_append,
          List.splitOnP_append_cons _ _ rfl, hsingle hlonger]
    · refine ⟨[], file.toList, by simpa using hfile, hsingle hmem, hsingle ?_⟩
      simpa using ⟨hmem, hextension⟩
  refine ⟨(front.map String.ofList).filter (· ≠ ""), String.ofList last, ?_, ?_⟩
  · simp [pathSteps, hsplit, hne]
  · simp [pathSteps, hsplit', hne]

/-- A file that can be read is not where its path with an extension leads. -/
theorem Directory.place_ne_of_append {d : Directory} {file extension : String} {own place : Place}
    (hown : d.locate file (readingSteps file) = .ok own) (hfile : d.isDirectory own = false)
    (hplace : d.locate (file ++ extension) (writingSteps (file ++ extension)) = .ok place)
    (hfree : d.isDirectory place = false) (hextension : '/' ∉ extension.toList) (hne : extension ≠ "") :
    own ≠ place := by
  have hempty : file ≠ "" := by
    rintro rfl
    cases hown
  have hslash : endsInSlash file = false := by
    by_contra hslash
    rw [readingSteps, if_pos (by simpa using hslash)] at hown
    rw [isDirectory_of_locate_dot hown] at hfile
    cases hfile
  have hslash' : endsInSlash (file ++ extension) = false := by
    have hlast : extension.toList.getLast? ≠ some '/' := fun h => hextension (List.mem_of_getLast? h)
    have hsome : extension.toList.getLast?.isSome = true := by simpa using hne
    obtain ⟨c, hc⟩ := Option.isSome_iff_exists.1 hsome
    simp [endsInSlash, List.getLast?_append, hc, hc ▸ hlast]
  have hstart : Place.start (file ++ extension) = Place.start file := by
    have hhead : (file ++ extension).toList.head? = file.toList.head? := by
      rw [String.toList_append, List.head?_append_of_ne_nil _ (by simpa using hempty)]
    rw [Place.start, Place.start, startsAtRoot, startsAtRoot, hhead]
  obtain ⟨steps, last, hsteps, hsteps'⟩ := pathSteps_append hempty hslash hextension
  rw [readingSteps, if_neg (by simp [hslash]), hsteps] at hown
  rw [writingSteps, if_neg (by simp [hslash']), hsteps'] at hplace
  obtain ⟨inner, hlast, hinner⟩ := locate_concat hown
  obtain ⟨inner', hlast', hinner'⟩ := locate_concat hplace
  rw [hstart, hinner] at hinner'
  cases hinner'
  rw [enter_eq_child hlast hfile, enter_eq_child hlast' hfree, Ne, Place.child_inj]
  intro hsame
  have hlength := congrArg String.length hsame
  have hpositive : extension.length ≠ 0 := by simpa using hne
  rw [String.length_append] at hlength
  omega

/-- A path that does not have the extension of bytecode is given it. -/
theorem bytecodePath_of_ne {file : String} (h : extension? file ≠ some bytecodeExtension) :
    bytecodePath file = file ++ "." ++ bytecodeExtension :=
  if_neg h

/-! ## Names in the working directory -/

/-- A path that is one name and no more. -/
def IsName (path : String) : Prop :=
  '/' ∉ path.toList ∧ path ≠ "" ∧ path ≠ "." ∧ path ≠ ".." ∧ path.utf8ByteSize ≤ Directory.nameLimit

instance (path : String) : Decidable (IsName path) :=
  inferInstanceAs (Decidable (_ ∧ _))

theorem IsName.steps {name : String} (h : IsName name) :
    readingSteps name = [name] ∧ writingSteps name = [name] := by
  obtain ⟨hslash, hempty, -⟩ := h
  have hsteps : pathSteps name = [name] := by
    have hsplit : name.toList.splitOnP (· == '/') = [name.toList] :=
      List.splitOnP_eq_singleton fun c hc => beq_false_of_ne fun h => hslash (h ▸ hc)
    simp [pathSteps, hsplit, hempty]
  have hend : endsInSlash name = false := by
    simpa [endsInSlash] using fun h => hslash (List.mem_of_getLast? h)
  simp [readingSteps, writingSteps, hend, hsteps]

theorem IsName.locate {name : String} (h : IsName name) (d : Directory) :
    d.locate name (readingSteps name) = .ok (.ofNames [name]) ∧
    d.locate name (writingSteps name) = .ok (.ofNames [name]) := by
  obtain ⟨hslash, hempty, hdot, hdots, hlimit⟩ := h
  have hroot : startsAtRoot name = false := by
    simpa [startsAtRoot] using fun h => hslash (List.mem_of_head? h)
  have hlocate : d.locate name [name] = .ok (.ofNames [name]) := by
    rw [Directory.locate, if_neg hempty, if_neg (by unfold Directory.nameLimit Directory.pathLimit at *; omega),
      Place.start, hroot, List.foldlM_cons]
    simp [Directory.enter, Directory.isDirectory, Place.working, hdot, hdots, not_lt.2 hlimit]
    rfl
  obtain ⟨hreading, hwriting⟩ := IsName.steps ⟨hslash, hempty, hdot, hdots, hlimit⟩
  exact ⟨hreading ▸ hlocate, hwriting ▸ hlocate⟩

end CMinusMinus.CommandLine
