import ManagedGraph.Proofs.Pom.Scanning
import ManagedGraph.Proofs.Text.Ranges

/-!
# Interpolation by byte offsets

Interpolation works on one text in place. It keeps the byte offset from which it looks for the next
reference, takes the name of a reference out by its range of bytes and writes a value over the
reference, after which the text is shorter or longer than before and the offset still stands. Here
the loop is run with each of these ranges checked. It never meets one that does not fit its text
(`round_cursor`), and it does what interpolation does.
-/

namespace ManagedGraph.Pom

namespace Interpolation

open Text

/-- The loop between two rounds, by offsets. -/
structure Cursor where
  text : String
  /-- The byte offset from which the next reference is looked for. -/
  position : Nat
  /-- How many references were replaced. -/
  replaced : Nat
deriving DecidableEq, Repr

namespace Cursor

/-- Before the first round the position is at the beginning. -/
def start (s : String) : Cursor :=
  ⟨s, 0, 0⟩

/-- The next reference: where it begins, where it ends, and its name. -/
def reference? (x : Cursor) : Except Misfit (Option (Nat × Nat × String)) := do
  let ahead ← slice x.text x.position x.text.utf8ByteSize
  match find? opener ahead with
  | none => pure none
  | some offset =>
      let first := x.position + offset
      let rest ← slice x.text first x.text.utf8ByteSize
      match find? closer rest with
      | none => pure none
      | some length =>
          let name ← slice x.text (first + 2) (first + length)
          pure (some (first, first + length + 1, name))

/-- One round. There is none at the limit, nor if there is no reference. -/
def round (d : Document) (x : Cursor) : Except Misfit (Option Cursor) :=
  if x.replaced < limit then do
    match ← x.reference? with
    | none => pure none
    | some (first, last, name) =>
        match d.value? name with
        | none => pure (some { x with position := last })
        | some value =>
            if occurs (reference name.toList) value.toList then
              pure (some { x with position := last })
            else
              let text ← replaceRange x.text first last value
              pure (some { x with text := text, replaced := x.replaced + 1 })
  else pure none

/-- Some number of rounds, or fewer if the loop ends before. -/
def run (d : Document) : Nat → Cursor → Except Misfit Cursor
  | 0, x => pure x
  | n + 1, x => do
      match ← x.round d with
      | none => pure x
      | some y => y.run d n

end Cursor

/-! ## No range is a misfit -/

/-- The same loop by offsets. -/
def Scan.cursor (x : Scan) : Cursor :=
  ⟨String.ofList x.text, bytes x.passed, x.replaced⟩

theorem bytes_opener : bytes opener = 2 := by decide

theorem bytes_reference {name : List Char} : bytes (reference name) = bytes (opener ++ name) + 1 := by
  have hcloser : bytes closer = 1 := by decide
  rw [reference, bytes_append, hcloser]

/-- No closer begins within an opener. -/
theorem breakOn_closer_opener {rest : List Char} :
    breakOn closer (opener ++ rest) =
      (breakOn closer rest).map fun parts => (opener ++ parts.1, parts.2) := by
  simp [breakOn, opener, closer, Function.comp_def]

namespace Scan

variable {x : Scan} {before name after : List Char}

/-- What is ahead begins at the position. -/
theorem slice_ahead (x : Scan) :
    slice x.cursor.text x.cursor.position x.cursor.text.utf8ByteSize =
      .ok (String.ofList x.ahead) :=
  slice_ofList_end rfl rfl

/-- The name of a reference lies behind the two bytes of the opener. -/
theorem slice_name (h : x.ahead = before ++ reference name ++ after) :
    slice x.cursor.text (bytes (x.passed ++ before) + 2)
      (bytes (x.passed ++ before) + bytes (opener ++ name)) = .ok (String.ofList name) := by
  have hparts : x.text = (x.passed ++ before ++ opener) ++ name ++ (closer ++ after) := by
    simp [text, h, reference]
  apply slice_ofList hparts
  · rw [bytes_append (t := opener), bytes_opener]
  · rw [← bytes_append, List.append_assoc (x.passed ++ before)]

/-- The next reference is the first one ahead, and its ranges fit the text. -/
theorem reference?_cursor (x : Scan) :
    x.cursor.reference? = .ok ((firstReference x.ahead).map fun found =>
      (bytes (x.passed ++ found.1), bytes (x.passed ++ found.1 ++ reference found.2.1),
        String.ofList found.2.1)) := by
  unfold Cursor.reference?
  rw [x.slice_ahead]
  simp only [bind, Except.bind, find?_ofList]
  cases hopens : breakOn opener x.ahead with
  | none => simp [firstReference, hopens, pure, Except.pure]
  | some parts =>
      obtain ⟨before, rest⟩ := parts
      have hopened : x.ahead = before ++ opener ++ rest := eq_append_of_breakOn hopens
      have hs : x.text = (x.passed ++ before) ++ (opener ++ rest) := by simp [text, hopened]
      have hfirst : x.cursor.position + bytes before = bytes (x.passed ++ before) :=
        bytes_append.symm
      have hrest : slice x.cursor.text (bytes (x.passed ++ before)) x.cursor.text.utf8ByteSize =
          .ok (String.ofList (opener ++ rest)) := slice_ofList_end hs rfl
      simp only [Option.map_some, hfirst, hrest, find?_ofList, breakOn_closer_opener]
      cases hcloses : breakOn closer rest with
      | none => simp [firstReference, hopens, hcloses, pure, Except.pure]
      | some parts =>
          obtain ⟨name, after⟩ := parts
          have hclosed : x.ahead = before ++ reference name ++ after := by
            simp [hopened, eq_append_of_breakOn hcloses, reference]
          have hlast : bytes (x.passed ++ before) + bytes (opener ++ name) + 1 =
              bytes (x.passed ++ before ++ reference name) := by
            rw [bytes_append (t := reference name), bytes_reference, Nat.add_assoc]
          simp only [Option.map_some, slice_name hclosed, hlast, firstReference, hopens, hcloses]
          rfl

theorem cursor_pass (h : x.ahead = before ++ reference name ++ after) :
    (x.pass ⟨before, name⟩ after).cursor =
      ⟨x.cursor.text, bytes (x.passed ++ before ++ reference name), x.replaced⟩ := by
  simp [cursor, pass, text, Part.text, h]

theorem replaceRange_cursor (h : x.ahead = before ++ reference name ++ after) (value : String) :
    replaceRange x.cursor.text (bytes (x.passed ++ before))
      (bytes (x.passed ++ before ++ reference name)) value =
        .ok (x.replace before value.toList after).cursor.text := by
  have hs : x.text = (x.passed ++ before) ++ reference name ++ after := by simp [text, h]
  have htext : (x.replace before value.toList after).cursor.text =
      String.ofList (x.passed ++ before ++ value.toList ++ after) := by
    simp [cursor, replace, text]
  rw [htext]
  exact replaceRange_ofList value hs rfl rfl

/-- A round by offsets is a round, and its ranges fit the text. -/
theorem round_cursor (d : Document) (x : Scan) :
    x.cursor.round d = .ok ((x.advance? d.valueOf limit).map Scan.cursor) := by
  have hreplaced : x.cursor.replaced = x.replaced := rfl
  unfold Cursor.round advance?
  rw [hreplaced, x.reference?_cursor]
  by_cases hlimit : x.replaced < limit
  · rw [if_pos hlimit, if_pos hlimit]
    cases hfirst : firstReference x.ahead with
    | none => rfl
    | some found =>
        obtain ⟨before, name, after⟩ := found
        obtain ⟨-, hahead⟩ := firstReference_eq_some_iff.1 hfirst
        have hpass := cursor_pass hahead
        simp only [Option.map_some, bind, Except.bind, Document.valueOf, String.toList_ofList]
        cases d.value? (String.ofList name) with
        | none =>
            simp only [Option.map_none, Option.map_some, hpass]
            rfl
        | some value =>
            simp only [Option.map_some]
            by_cases hoccurs : occurs (reference name) value.toList = true
            · rw [if_pos hoccurs, if_pos hoccurs, Option.map_some, hpass]
              rfl
            · rw [if_neg hoccurs, if_neg hoccurs, replaceRange_cursor hahead]
              rfl
  · rw [if_neg hlimit, if_neg hlimit]
    rfl

/-- The loop by offsets comes to its end as the loop does. -/
theorem exists_run_cursor (d : Document) (x : Scan) :
    ∃ n, x.cursor.run d n = .ok (x.finish d.valueOf limit).cursor := by
  induction x using finish.induct d.valueOf limit with
  | case1 x hnone => exact ⟨0, by rw [finish_of_none hnone]; rfl⟩
  | case2 x y hsome ih =>
      obtain ⟨n, hn⟩ := ih
      refine ⟨n + 1, ?_⟩
      rw [Cursor.run, x.round_cursor, hsome, finish_of_some hsome]
      exact hn

/-! ## How long the text becomes -/

variable {value? : List Char → Option (List Char)} {budget n : Nat} {y : Scan}

/-- A round replaces at most one reference, and none at the limit. -/
theorem replaced_finish_le (h : x.replaced ≤ budget) :
    (x.finish value? budget).replaced ≤ budget := by
  apply finish_induction (P := fun x => x.replaced ≤ budget) _ h
  intro x y hround hx
  obtain ⟨hlimit, before, name, after, -, ⟨-, rfl⟩ | ⟨value, -, -, rfl⟩⟩ := advance?_cases hround
  · exact hx
  · exact hlimit

/-- A replacement adds at most the bytes of a value. -/
theorem bytes_text_advance (hvalues : ∀ name value, value? name = some value → bytes value ≤ n)
    (h : x.advance? value? budget = some y) :
    bytes y.text + n * x.replaced ≤ bytes x.text + n * y.replaced := by
  obtain ⟨-, before, name, after, hfirst, ⟨-, rfl⟩ | ⟨value, hvalue, -, rfl⟩⟩ := advance?_cases h
  · obtain ⟨-, hahead⟩ := firstReference_eq_some_iff.1 hfirst
    simp [pass, text, Part.text, hahead]
  · obtain ⟨-, hahead⟩ := firstReference_eq_some_iff.1 hfirst
    have hlongest : bytes value ≤ n := hvalues name value hvalue
    simp only [replace, text, hahead, bytes_append, Nat.mul_succ]
    omega

theorem bytes_text_finish (hvalues : ∀ name value, value? name = some value → bytes value ≤ n)
    (s : List Char) :
    bytes ((start s).finish value? budget).text ≤
      bytes s + n * ((start s).finish value? budget).replaced := by
  apply finish_induction (P := fun x => bytes x.text ≤ bytes s + n * x.replaced)
  · intro x y hround hx
    have hadded := bytes_text_advance hvalues hround
    omega
  · simp [start, text]

end Scan

end Interpolation

namespace Document

open Text Interpolation

/-- The names of project variables. -/
def projectVariables : List String :=
  ["project.groupId", "pom.groupId", "project.artifactId", "pom.artifactId", "project.version",
    "pom.version", "project.packaging", "pom.packaging", "project.parent.groupId",
    "project.parent.version"]

/-- The values of all names that have one. -/
def resolvable (d : Document) : List String :=
  (projectVariables ++ d.properties.keys).filterMap d.value?

/-- The number of bytes of the longest value of a name, or zero if no name has a value. -/
def longestValue (d : Document) : Nat :=
  (d.resolvable.map String.utf8ByteSize).max?.getD 0

theorem mem_resolvable_iff {d : Document} {value : String} :
    value ∈ d.resolvable ↔ ∃ name, d.value? name = some value := by
  rw [resolvable, List.mem_filterMap]
  constructor
  · rintro ⟨name, -, hvalue⟩
    exact ⟨name, hvalue⟩
  · rintro ⟨name, hvalue⟩
    refine ⟨name, ?_, hvalue⟩
    unfold value? at hvalue
    split at hvalue
    -- the last case is that of a property
    rotate_right
    · apply List.mem_append_right
      rw [Std.ExtTreeMap.mem_keys, Std.ExtTreeMap.mem_iff_isSome_getElem?, hvalue]
      rfl
    all_goals simp [projectVariables]

theorem utf8ByteSize_le_longestValue {d : Document} {name value : String}
    (h : d.value? name = some value) : value.utf8ByteSize ≤ d.longestValue :=
  List.le_max?_getD_of_mem (List.mem_map_of_mem (mem_resolvable_iff.2 ⟨name, h⟩))

/-- Interpolation by offsets ends: after some number of rounds there is no further one. No range
that any of these rounds takes out or replaces is a misfit for the text at that time. The text at
the end is the interpolated one. At most twenty references were replaced by then, so the text has
grown by at most twenty times the longest value. -/
theorem interpolate_fits (d : Document) (s : String) :
    ∃ n x, (Cursor.start s).run d n = .ok x ∧ x.round d = .ok none ∧ x.text = d.interpolate s ∧
      x.replaced ≤ 20 ∧
      (d.interpolate s).utf8ByteSize ≤ s.utf8ByteSize + 20 * d.longestValue := by
  have hstart : (Scan.start s.toList).cursor = Cursor.start s := by
    simp [Scan.cursor, Scan.start, Scan.text, Cursor.start]
  obtain ⟨n, hn⟩ := (Scan.start s.toList).exists_run_cursor d
  have hend : (d.scan s).cursor.round d = .ok none := by
    rw [Scan.round_cursor, scan, Scan.advance?_finish]
    rfl
  have htext : (d.scan s).cursor.text = d.interpolate s := by
    rw [Scan.cursor, text_scan, String.ofList_toList]
  have hreplaced : (d.scan s).replaced ≤ 20 := Scan.replaced_finish_le (Nat.zero_le limit)
  have hvalues : ∀ name value, d.valueOf name = some value → bytes value ≤ d.longestValue := by
    intro name value hvalue
    obtain ⟨value, hlookup, rfl⟩ := Option.map_eq_some_iff.1 hvalue
    rw [bytes, String.ofList_toList]
    exact utf8ByteSize_le_longestValue hlookup
  have hsize : (d.interpolate s).utf8ByteSize ≤ s.utf8ByteSize + 20 * d.longestValue := by
    calc (d.interpolate s).utf8ByteSize
        = bytes (d.scan s).text := by rw [← htext]; rfl
      _ ≤ bytes s.toList + d.longestValue * (d.scan s).replaced :=
          Scan.bytes_text_finish hvalues s.toList
      _ ≤ s.utf8ByteSize + 20 * d.longestValue := by
          rw [bytes, String.ofList_toList, Nat.mul_comm]
          exact Nat.add_le_add_left (Nat.mul_le_mul_right _ hreplaced) _
  exact ⟨n, (d.scan s).cursor, hstart ▸ hn, hend, htext, hreplaced, hsize⟩

end Document

end ManagedGraph.Pom
