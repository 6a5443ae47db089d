import CMinusMinus.Code.Snapshot
import Mathlib

/-!
# Snapshots are read back

A reader takes exactly the bytes that were written for its value: what comes behind them is left, and
where they are cut short the reader finds that its input ends too early. Both hold of the readers of
numbers and texts, and pass from the readers of parts to those of lists, of instructions and of programs.
So a snapshot needs no end mark, and no part of it is a snapshot of something else.
-/

namespace CMinusMinus.Snapshot

variable {α β : Type}

/-! ## Readers -/

/-- The reader gives the value and leaves what comes behind the bytes; of the same bytes cut short it says
that they end too early. -/
structure Takes (reader : Reader α) (bytes : List UInt8) (value : α) : Prop where
  complete : ∀ rest, reader (bytes ++ rest) = .ok (value, rest)
  short : ∀ front, front <+: bytes → front ≠ bytes → reader front = .error .endOfInput

theorem bind_of_ok {reader : Reader α} {next : α → Reader β} {input rest : List UInt8} {value : α}
    (h : reader input = .ok (value, rest)) : (reader >>= next) input = next value rest := by
  change (reader input >>= fun read => next read.1 read.2) = next value rest
  rw [h]
  rfl

theorem bind_of_error {reader : Reader α} {next : α → Reader β} {input : List UInt8} {error : Error}
    (h : reader input = .error error) : (reader >>= next) input = .error error := by
  change (reader input >>= fun read => next read.1 read.2) = .error error
  rw [h]
  rfl

theorem takes_pure (value : α) : Takes (pure value) [] value :=
  ⟨fun _ => rfl, fun _ hf hne => absurd (List.prefix_nil.1 hf) hne⟩

/-- Bytes that are cut short are cut in the first part, or in the second one behind all of the first. -/
theorem Takes.bind {reader : Reader α} {next : α → Reader β} {s t : List UInt8} {a : α} {b : β}
    (ha : Takes reader s a) (hb : Takes (next a) t b) :
    Takes (reader >>= next) (s ++ t) b := by
  constructor
  · intro rest
    rw [List.append_assoc, bind_of_ok (ha.complete _)]
    exact hb.complete rest
  · intro front hf hne
    rcases List.prefix_or_prefix_of_prefix hf (List.prefix_append s t) with hcut | ⟨back, rfl⟩
    · by_cases hall : front = s
      · subst hall
        have hback := hb.short [] List.nil_prefix fun he => hne (by rw [← he, List.append_nil])
        rw [← List.append_nil front, bind_of_ok (ha.complete [])]
        exact hback
      · exact bind_of_error (ha.short front hcut hall)
    · rw [bind_of_ok (ha.complete back)]
      exact hb.short back ((List.prefix_append_right_inj s).1 hf) fun he => hne (by rw [he])

theorem Takes.map {reader : Reader α} {bytes : List UInt8} {a : α} (ha : Takes reader bytes a)
    (f : α → β) : Takes (reader >>= fun x => pure (f x)) bytes (f a) := by
  rw [← List.append_nil bytes]
  exact ha.bind (takes_pure (f a))

/-! ## Numbers -/

theorem takes_readByte (byte : UInt8) : Takes readByte [byte] byte := by
  refine ⟨fun _ => rfl, fun front hf hne => ?_⟩
  obtain rfl : front = [] := by
    rcases List.prefix_cons_iff.1 hf with hnil | ⟨back, rfl, hback⟩
    · exact hnil
    · exact absurd (by rw [List.prefix_nil.1 hback]) hne
  rfl

/-- How many numbers there are of at most `bytes` bytes and a last one that is at most `last`. -/
def groupBound (last : Nat) : Nat → Nat
  | 0 => last + 1
  | bytes + 1 => 128 * groupBound last bytes

theorem toNat_ofNat {n : Nat} (h : n < 256) : (UInt8.ofNat n).toNat = n := by
  rw [UInt8.toNat_ofNat', Nat.mod_eq_of_lt h]

theorem takes_readGroups {last : Nat} (hlast : last < 128) (bytes : Nat) {n : Nat}
    (hn : n < groupBound last bytes) : Takes (readGroups last (bytes + 1)) (number n) n := by
  induction bytes generalizing n with
  | zero =>
    have hn : n < last + 1 := hn
    rw [number, if_pos (by omega)]
    refine (takes_readByte (.ofNat n)).bind (t := []) ?_
    dsimp only
    rw [toNat_ofNat (by omega), if_neg (by omega), if_neg (by omega)]
    exact takes_pure n
  | succ bytes ih =>
    have hn : n < 128 * groupBound last bytes := hn
    rw [number]
    split
    · refine (takes_readByte (.ofNat n)).bind (t := []) ?_
      dsimp only
      rw [toNat_ofNat (by omega), if_neg (by omega), if_neg (by omega)]
      exact takes_pure n
    · refine (takes_readByte (.ofNat (n % 128 + 128))).bind (t := number (n / 128)) ?_
      dsimp only
      rw [toNat_ofNat (by omega), if_pos (by omega)]
      have hrest := ih (n := n / 128) (by omega)
      have hvalue : n % 128 + 128 - 128 + 128 * (n / 128) = n := by omega
      have := hrest.map fun high => n % 128 + 128 - 128 + 128 * high
      rwa [hvalue] at this

theorem takes_readNumber {n : Nat} (hn : n < Text.countBound) : Takes readNumber (number n) n :=
  takes_readGroups (by decide) 9 hn

theorem takes_readShort {n : Nat} (hn : n < groupBound 15 4) : Takes readShort (number n) n :=
  takes_readGroups (by decide) 4 hn

/-! ## Texts -/

theorem takes_readBytes (bytes : List UInt8) : Takes (readBytes bytes.length) bytes bytes := by
  constructor
  · intro rest
    simp [readBytes]
  · intro front hf hne
    have hlt : front.length < bytes.length :=
      Nat.lt_of_le_of_ne hf.length_le fun he => hne (hf.eq_of_length he)
    have htake : (front.take bytes.length).length < bytes.length := by
      rw [List.length_take]
      omega
    simp only [readBytes, if_pos htake]

theorem fromUTF8?_toUTF8 (s : String) :
    String.fromUTF8? ⟨s.toByteArray.data.toList.toArray⟩ = some s := by
  rw [Array.toArray_toList, String.fromUTF8?, dif_pos s.isValidUTF8]
  rfl

theorem takes_readText {s : String} (hs : s.utf8ByteSize < Text.countBound) :
    Takes readText (text s) s := by
  refine (takes_readNumber hs).bind ?_
  rw [← List.append_nil s.toUTF8.data.toList]
  refine (takes_readBytes _).bind ?_
  rw [fromUTF8?_toUTF8]
  exact takes_pure s

/-! ## Lists -/

theorem takes_readItems {reader : Reader α} {item : α → List UInt8} {items : List α}
    (h : ∀ a ∈ items, Takes reader (item a) a) (read : Array α) :
    Takes (readItems reader items.length read) (items.flatMap item) (read ++ items.toArray) := by
  induction items generalizing read with
  | nil =>
    rw [Array.append_empty]
    exact takes_pure read
  | cons a items ih =>
    obtain ⟨ha, hitems⟩ := List.forall_mem_cons.1 h
    have hread : read ++ (a :: items).toArray = read.push a ++ items.toArray := by simp
    rw [hread]
    exact ha.bind (ih hitems (read.push a))

theorem takes_readList {reader : Reader α} {item : α → List UInt8} {items : List α}
    (hl : items.length < Text.countBound) (h : ∀ a ∈ items, Takes reader (item a) a) :
    Takes (readList reader) (list item items) items.toArray := by
  refine (takes_readNumber hl).bind ?_
  have := takes_readItems h #[]
  rwa [Array.empty_append] at this

/-! ## Instructions and labels -/

theorem number_lt (opcode : Opcode) : opcode.number < Opcode.all.length := by
  have h := Opcode.ofNumber?_number opcode
  exact (List.getElem?_eq_some_iff.1 h).1

theorem takes_readInstruction {i : Instruction} (hargs : i.args.length < Text.countBound)
    (htexts : ∀ arg ∈ i.args, arg.utf8ByteSize < Text.countBound) :
    Takes readInstruction (instruction i) i := by
  have hnumber : i.opcode.number < groupBound 15 4 :=
    Nat.lt_trans (number_lt i.opcode) (by decide)
  refine (takes_readShort hnumber).bind ?_
  rw [Opcode.ofNumber?_number]
  exact (takes_readList hargs fun arg ha => takes_readText (htexts arg ha)).map
    fun args => (⟨i.opcode, args.toList⟩ : Instruction)

theorem takes_readLabel {entry : String × Nat} (hname : entry.1.utf8ByteSize < Text.countBound)
    (hposition : entry.2 < Text.countBound) : Takes readLabel (label entry) entry :=
  (takes_readText hname).bind ((takes_readNumber hposition).map fun position => (entry.1, position))

end CMinusMinus.Snapshot

namespace CMinusMinus

/-! ## Label tables -/

theorem Labels.ext {labels labels' : Labels} (h : labels.entries = labels'.entries) :
    labels = labels' := by
  cases labels
  cases labels'
  cases h
  rfl

theorem Labels.entries_set {labels : Labels} {name : String} {position : Nat}
    (h : name ∉ labels.entries.map Prod.fst) :
    (labels.set name position).entries = labels.entries ++ [(name, position)] := by
  have hnone := Labels.get?_eq_none_iff.2 h
  have hset : labels.set name position = labels.define name position := by
    unfold set contains
    rw [hnone]
    rfl
  rw [hset, define, dif_pos hnone]

/-- Names that are new and differ are set in order. -/
theorem Labels.entries_foldl_set (entries : List (String × Nat)) (labels : Labels)
    (h : ((labels.entries ++ entries).map Prod.fst).Nodup) :
    (entries.foldl (fun table entry => table.set entry.1 entry.2) labels).entries =
      labels.entries ++ entries := by
  induction entries generalizing labels with
  | nil => exact (List.append_nil _).symm
  | cons entry entries ih =>
    have hnew : entry.1 ∉ labels.entries.map Prod.fst := by
      rw [List.map_append, List.nodup_append] at h
      exact fun hm => h.2.2 _ hm _ (List.mem_cons_self ..) rfl
    have hentries : (labels.set entry.1 entry.2).entries = labels.entries ++ [entry] := entries_set hnew
    have hsame : labels.entries ++ entry :: entries =
        (labels.set entry.1 entry.2).entries ++ entries := by
      rw [hentries, List.append_assoc]
      rfl
    rw [hsame] at h ⊢
    exact ih _ h

theorem Labels.foldl_set_entries (labels : Labels) :
    labels.entries.foldl (fun table entry => table.set entry.1 entry.2) empty = labels :=
  ext (entries_foldl_set labels.entries empty labels.nodup)

/-! ## Programs -/

/-- Every length and every position is a count that a machine word holds. -/
structure Program.Fits (p : Program) : Prop where
  size : p.size < Text.countBound
  args : ∀ i ∈ p.instructions, i.args.length < Text.countBound
  texts : ∀ i ∈ p.instructions, ∀ arg ∈ i.args, arg.utf8ByteSize < Text.countBound
  labels : p.labels.size < Text.countBound
  names : ∀ entry ∈ p.labels.entries, entry.1.utf8ByteSize < Text.countBound
  positions : ∀ entry ∈ p.labels.entries, entry.2 < Text.countBound

open CMinusMinus.Snapshot in
theorem Snapshot.takes_readProgram {p : Program} (h : p.Fits) : Takes readProgram p.dump p := by
  have hinstructions : Takes (readList readInstruction) (list instruction p.instructions.toList)
      p.instructions.toList.toArray := by
    refine takes_readList ?_ fun i hi => ?_
    · rw [Array.length_toList]
      exact h.size
    · have hi := Array.mem_toList_iff.1 hi
      exact takes_readInstruction (h.args i hi) (h.texts i hi)
  have hlabels : Takes (readList readLabel) (list label p.labels.entries) p.labels.entries.toArray :=
    takes_readList h.labels fun entry he => takes_readLabel (h.names entry he) (h.positions entry he)
  refine hinstructions.bind ?_
  have := hlabels.map fun labels => (⟨p.instructions.toList.toArray,
    labels.foldl (fun table entry => table.set entry.1 entry.2) .empty⟩ : Program)
  rwa [List.foldl_toArray, Labels.foldl_set_entries, Array.toArray_toList] at this

namespace Program

/-- A snapshot is read back as the program that was written, whatever bytes come behind it; no part of it
from its start is a snapshot, since its input ends too early. -/
theorem restore_dump {p : Program} (h : p.Fits) :
    (∀ rest, restore (p.dump ++ rest) = .ok p) ∧
    ∀ front, front <+: p.dump → front ≠ p.dump → restore front = .error .endOfInput := by
  have hp := Snapshot.takes_readProgram h
  refine ⟨fun rest => ?_, fun front hf hne => ?_⟩
  · rw [restore, hp.complete]
    rfl
  · rw [restore, hp.short front hf hne]
    rfl

/-- An instruction with more arguments than it takes, one of them not ASCII and one empty, and a label far
past the end. -/
theorem restore_dump_call :
    let p : Program := ⟨#[⟨.call, ["ä€😀", ""]⟩], .ofList [("main", 0), ("ß", 0xffffffffffffffff)]⟩
    p.Fits ∧ p.dump = [1, 17, 2, 9, 0xc3, 0xa4, 0xe2, 0x82, 0xac, 0xf0, 0x9f, 0x98, 0x80, 0,
      2, 4, 0x6d, 0x61, 0x69, 0x6e, 0, 2, 0xc3, 0x9f,
      0xff, 0xff, 0xff, 0xff, 0xff, 0xff, 0xff, 0xff, 0xff, 1] ∧
    restore (p.dump ++ [7]) = .ok p ∧ restore (p.dump.take 33) = .error .endOfInput := by
  intro p
  have hfits : p.Fits := by
    constructor <;> decide
  have hdump : p.dump = [1, 17, 2, 9, 0xc3, 0xa4, 0xe2, 0x82, 0xac, 0xf0, 0x9f, 0x98, 0x80, 0,
      2, 4, 0x6d, 0x61, 0x69, 0x6e, 0, 2, 0xc3, 0x9f,
      0xff, 0xff, 0xff, 0xff, 0xff, 0xff, 0xff, 0xff, 0xff, 1] := by
    cbv
  obtain ⟨hcomplete, hshort⟩ := restore_dump hfits
  refine ⟨hfits, hdump, hcomplete [7], hshort _ (List.take_prefix 33 _) ?_⟩
  rw [hdump]
  decide

end Program

end CMinusMinus
