import CMinusMinus.CommandLine.Arguments
import Mathlib

/-!
# Reading arguments

Operands are collected and never looked at while arguments are read, so an operand in front of options leaves
the reading of the options as it is. This tells what the command lines mean that name a file first.
-/

namespace CMinusMinus.CommandLine

/-! ## Operands in front -/

namespace Given

/-- What is given, with other operands in front. -/
def behind (front : List String) (given : Given) : Given :=
  { given with operands := front ++ given.operands }

variable (front : List String) (given : Given)

theorem add_behind (key : Key) (value : String) :
    (given.behind front).add key value = (given.add key value).map (behind front) := by
  simp only [add, behind]
  by_cases hgiven : (given.options.lookup key).isSome <;> simp [hgiven, Except.map, behind]

theorem addOperand_behind (operand : String) :
    (given.behind front).addOperand operand = (given.addOperand operand).behind front := by
  simp [addOperand, behind]

theorem addOperands_behind (operands : List String) :
    operands.foldl addOperand (given.behind front) = (operands.foldl addOperand given).behind front := by
  induction operands generalizing given with
  | nil => rfl
  | cons operand operands ih => rw [List.foldl_cons, List.foldl_cons, addOperand_behind, ih]

end Given

section Reading

variable (keys : List Key) (argument : String) (front : List String)

/-- What one argument gives, with other operands in front. -/
def behindAll : Given × Option Key → Given × Option Key :=
  Prod.map (Given.behind front) id

theorem added_behind (given : Given) (key : Key) (value : String) :
    (do return (← (given.behind front).add key value, none) : Except UsageError (Given × Option Key)) =
      Except.map (behindAll front) (do return (← given.add key value, none)) := by
  rw [Given.add_behind]
  cases given.add key value <;> rfl

theorem readShort_behind (given : Given) (cs : List Char) :
    readShort keys argument (given.behind front) cs =
      (readShort keys argument given cs).map (behindAll front) := by
  induction cs generalizing given with
  | nil => rfl
  | cons c cs ih =>
    simp only [readShort]
    cases keys.find? (·.short? == some c) with
    | none => rfl
    | some key =>
      dsimp only
      split
      · split
        · rfl
        all_goals exact added_behind front given key _
      · split
        · rfl
        · -- the other letters of the argument are read with what this one gives
          rw [Given.add_behind]
          cases given.add key "" with
          | error e => rfl
          | ok given' => exact ih given'

theorem readLong_behind (given : Given) :
    readLong keys argument (given.behind front) = (readLong keys argument given).map (behindAll front) := by
  unfold readLong
  dsimp only
  split
  · rfl
  · split
    · rfl
    · exact added_behind front given _ _
    · exact added_behind front given _ _
    · rfl

theorem readOption_behind (given : Given) :
    readOption keys argument (given.behind front) = (readOption keys argument given).map (behindAll front) := by
  unfold readOption
  split
  · exact readLong_behind keys argument front given
  · exact readShort_behind keys argument front given _

theorem readArguments_behind (given : Given) (waiting : Option Key) (arguments : List String) :
    readArguments keys (given.behind front) waiting arguments =
      (readArguments keys given waiting arguments).map (Given.behind front) := by
  induction arguments generalizing given waiting with
  | nil => cases waiting <;> rfl
  | cons argument rest ih =>
    simp only [readArguments]
    cases waiting with
    | some key =>
      dsimp only
      split
      · rfl
      · rw [Given.add_behind]
        cases given.add key argument with
        | error e => rfl
        | ok given' => exact ih given' none
    | none =>
      dsimp only
      split
      · rw [Given.addOperands_behind]
        rfl
      · split
        · rw [readOption_behind]
          cases readOption keys argument given with
          | error e => rfl
          | ok result => exact ih result.1 result.2
        · rw [Given.addOperand_behind]
          exact ih _ none

end Reading

/-! ## Files named first -/

/-- A file that can be named where no command is: it is neither a command nor an option. -/
structure IsFile (file : String) : Prop where
  nonempty : file ≠ ""
  operand : isOption file = false
  unreserved : file ∉ Command.words

/-- Arguments that say how a program is run, and no more. -/
def RunFlags.Spelled (flags : RunFlags) (options : List String) : Prop :=
  ∃ given, readArguments runKeys .empty none options = .ok given ∧ given.operands = [] ∧
    given.runFlags = .ok flags

variable {file : String} {options : List String} {flags : RunFlags}

theorem readArguments_operand (keys : List Key) (hfile : isOption file = false) (options : List String) :
    readArguments keys .empty none (file :: options) =
      (readArguments keys .empty none options).map (Given.behind [file]) := by
  have hdashes : file ≠ "--" := by
    rintro rfl
    cases hfile
  rw [readArguments, if_neg hdashes, hfile, ← readArguments_behind]
  rfl

theorem Given.file?_singleton {given : Given} (hfile : file ≠ "") (h : given.operands = [file]) :
    given.file? = .ok (some file) := by
  unfold file?
  rw [h]
  split
  · next hnone => cases hnone
  · next hempty => cases hempty; exact absurd rfl hfile
  · next hone => cases hone; rfl
  · next hmore => cases hmore

theorem Given.file_singleton {given : Given} (hfile : file ≠ "") (h : given.operands = [file]) :
    given.file = .ok file := by
  rw [Given.file, file?_singleton hfile h]
  rfl

/-- Options behind a file are read with the file in front. -/
theorem IsFile.read (hfile : IsFile file) (hflags : flags.Spelled options) :
    ∃ given, readArguments runKeys .empty none (file :: options) = .ok given ∧ given.operands = [file] ∧
      given.runFlags = .ok flags := by
  obtain ⟨given, hread, hnone, hflags⟩ := hflags
  refine ⟨given.behind [file], ?_, ?_, hflags⟩
  · rw [readArguments_operand runKeys hfile.operand, hread]
    rfl
  · rw [Given.behind, hnone]
    rfl

/-- A file that is named where no command is, is compiled and run as the options say. -/
theorem IsFile.ofArguments (hfile : IsFile file) (hflags : flags.Spelled options) :
    Command.ofArguments (file :: options) = .ok (.compileAndRun file flags) := by
  obtain ⟨given, hread, hoperands, hflags⟩ := hfile.read hflags
  have hunreserved := hfile.unreserved
  simp only [Command.words, List.mem_cons, not_or] at hunreserved
  unfold Command.ofArguments
  split
  case h_8 =>
    simp only [hread, hflags, Given.file?_singleton hfile.nonempty hoperands, bind, Except.bind]
    rfl
  -- in the other cases a command stands first
  all_goals simp_all

theorem IsFile.ofArguments_run (hfile : IsFile file) (hflags : flags.Spelled options) :
    Command.ofArguments ("run" :: file :: options) = .ok (.run file flags) := by
  obtain ⟨given, hread, hoperands, hflags⟩ := hfile.read hflags
  simp only [Command.ofArguments, hread, hflags, Given.file_singleton hfile.nonempty hoperands, bind, Except.bind]
  rfl

/-- A file that is named behind the command to compile, with a report or without one. -/
theorem IsFile.ofArguments_compile (hfile : IsFile file) (info : Bool) :
    Command.ofArguments ("compile" :: file :: if info then ["-i"] else []) = .ok (.compile file none info) := by
  have hread : readArguments [.output, .info] .empty none (file :: if info then ["-i"] else []) =
      .ok ⟨if info then [(.info, "")] else [], [file]⟩ := by
    rw [readArguments_operand _ hfile.operand]
    cases info <;> rfl
  have hfront : ∀ options, Given.file ⟨options, [file]⟩ = .ok file :=
    fun _ => Given.file_singleton hfile.nonempty rfl
  simp only [Command.ofArguments, hread, hfront, bind, Except.bind]
  cases info <;> rfl

end CMinusMinus.CommandLine
