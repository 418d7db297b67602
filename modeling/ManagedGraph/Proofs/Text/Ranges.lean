import ManagedGraph.Text.Search

/-!
# Ranges of bytes

A text may be cut at byte offsets. A range of bytes can be taken out of a text, or replaced in it,
only if it lies within the text and no character is cut in two; any other range is an error. What
is taken out stands between two texts that make up the rest (`slice_eq_ok_iff`).
-/

namespace ManagedGraph.Text

/-- The number of bytes that a text takes up. -/
def bytes (s : List Char) : Nat :=
  (String.ofList s).utf8ByteSize

@[simp] theorem bytes_nil : bytes [] = 0 := by
  simp [bytes]

@[simp] theorem bytes_append {s t : List Char} : bytes (s ++ t) = bytes s + bytes t := by
  simp [bytes, String.ofList_append, String.utf8ByteSize_append]

/-- A range of bytes lies within a text, and begins and ends between characters. -/
structure Fits (text : String) (first last : Nat) : Prop where
  le : first ≤ last
  begins : String.Pos.Raw.IsValid text ⟨first⟩
  ends : String.Pos.Raw.IsValid text ⟨last⟩

instance (text : String) (first last : Nat) : Decidable (Fits text first last) :=
  decidable_of_iff (first ≤ last ∧ String.Pos.Raw.IsValid text ⟨first⟩ ∧
    String.Pos.Raw.IsValid text ⟨last⟩)
    ⟨fun ⟨le, begins, ends⟩ => ⟨le, begins, ends⟩, fun ⟨le, begins, ends⟩ => ⟨le, begins, ends⟩⟩

/-- A range that was asked for but does not fit the text. -/
structure Misfit where
  text : String
  first : Nat
  last : Nat
deriving DecidableEq, Repr

/-- The part of a text in a range of bytes. -/
def slice (text : String) (first last : Nat) : Except Misfit String :=
  if h : Fits text first last then
    .ok (String.extract (text.pos ⟨first⟩ h.begins) (text.pos ⟨last⟩ h.ends))
  else .error ⟨text, first, last⟩

/-- Where a text ends that another one follows, no character is cut in two. -/
theorem isValid_of_eq_append {text before after : String} {i : Nat}
    (htext : text = before ++ after) (hi : i = before.utf8ByteSize) :
    String.Pos.Raw.IsValid text ⟨i⟩ := by
  rw [String.Pos.Raw.isValid_iff_exists_append]
  exact ⟨before, after, htext, by rw [hi]; rfl⟩

theorem splits_pos_iff {text before after : String} {i : Nat}
    (h : String.Pos.Raw.IsValid text ⟨i⟩) :
    (text.pos ⟨i⟩ h).Splits before after ↔ text = before ++ after ∧ i = before.utf8ByteSize := by
  constructor
  · intro hsplits
    have hi := congrArg String.Pos.Raw.byteIdx hsplits.offset_eq_rawEndPos
    rw [String.offset_pos, String.byteIdx_rawEndPos] at hi
    exact ⟨hsplits.eq_append, hi⟩
  · rintro ⟨htext, rfl⟩
    exact ⟨htext, String.offset_pos⟩

/-- Two offsets between characters take a text apart, and what is between them is taken out. -/
theorem extract_pos_eq_iff {text part : String} {first last : Nat} (h : Fits text first last) :
    String.extract (text.pos ⟨first⟩ h.begins) (text.pos ⟨last⟩ h.ends) = part ↔
      ∃ before after, text = before ++ part ++ after ∧ first = before.utf8ByteSize ∧
        last = (before ++ part).utf8ByteSize := by
  have hle : text.pos ⟨first⟩ h.begins ≤ text.pos ⟨last⟩ h.ends := by
    simpa [String.Pos.le_iff, String.Pos.Raw.le_iff] using h.le
  rw [String.extract_eq_copy_slice _ _ hle]
  constructor
  · intro hpart
    obtain ⟨before, after, hbegins, hends⟩ := String.copy_slice_eq_iff_splits.1 ⟨hle, hpart⟩
    obtain ⟨-, hfirst⟩ := (splits_pos_iff h.begins).1 hbegins
    obtain ⟨htext, hlast⟩ := (splits_pos_iff h.ends).1 hends
    exact ⟨before, after, htext, hfirst, hlast⟩
  · rintro ⟨before, after, htext, hfirst, hlast⟩
    have hbegins := (splits_pos_iff h.begins).2 ⟨htext.trans String.append_assoc, hfirst⟩
    have hends := (splits_pos_iff h.ends).2 ⟨htext, hlast⟩
    obtain ⟨_, hpart⟩ := String.copy_slice_eq_iff_splits.2 ⟨before, after, hbegins, hends⟩
    exact hpart

/-- A range that fits takes one text out from between two others. -/
theorem slice_eq_ok_iff {text part : String} {first last : Nat} :
    slice text first last = .ok part ↔
      ∃ before after, text = before ++ part ++ after ∧ first = before.utf8ByteSize ∧
        last = (before ++ part).utf8ByteSize := by
  constructor
  · intro h
    unfold slice at h
    split at h
    · rename_i hfits
      exact (extract_pos_eq_iff hfits).1 (Except.ok.inj h)
    · cases h
  · rintro ⟨before, after, htext, hfirst, hlast⟩
    have hle : first ≤ last := by
      rw [hfirst, hlast, String.utf8ByteSize_append]
      exact Nat.le_add_right _ _
    have hfits : Fits text first last :=
      ⟨hle, isValid_of_eq_append (htext.trans String.append_assoc) hfirst,
        isValid_of_eq_append htext hlast⟩
    unfold slice
    rw [dif_pos hfits, (extract_pos_eq_iff hfits).2 ⟨before, after, htext, hfirst, hlast⟩]

example : slice "é$" 0 1 = .error ⟨"é$", 0, 1⟩ := rfl

/-- The text with the part in a range of bytes replaced. -/
def replaceRange (text : String) (first last : Nat) (value : String) : Except Misfit String := do
  let _ ← slice text first last
  let before ← slice text 0 first
  let after ← slice text last text.utf8ByteSize
  pure (before ++ value ++ after)

/-- The byte offset at which a needle first occurs. -/
def find? (needle : List Char) (text : String) : Option Nat :=
  (breakOn needle text.toList).map fun parts => bytes parts.1

/-! ## Ranges between parts of a text -/

variable {s before part after : List Char} {first last : Nat}

theorem slice_ofList (hs : s = before ++ part ++ after) (hfirst : first = bytes before)
    (hlast : last = bytes (before ++ part)) :
    slice (String.ofList s) first last = .ok (String.ofList part) := by
  rw [bytes, String.ofList_append] at hlast
  refine slice_eq_ok_iff.2 ⟨String.ofList before, String.ofList after, ?_, hfirst, hlast⟩
  rw [hs, String.ofList_append, String.ofList_append]

/-- What follows an offset goes to the end of the text. -/
theorem slice_ofList_end (hs : s = before ++ part) (hfirst : first = bytes before) :
    slice (String.ofList s) first (String.ofList s).utf8ByteSize = .ok (String.ofList part) := by
  have hsize : (String.ofList s).utf8ByteSize = bytes (before ++ part) := by
    rw [← hs]
    rfl
  have hnothing : s = before ++ part ++ [] := by rw [hs, List.append_nil]
  exact slice_ofList hnothing hfirst hsize

theorem replaceRange_ofList (value : String) (hs : s = before ++ part ++ after)
    (hfirst : first = bytes before) (hlast : last = bytes (before ++ part)) :
    replaceRange (String.ofList s) first last value =
      .ok (String.ofList (before ++ value.toList ++ after)) := by
  have hpart := slice_ofList hs hfirst hlast
  have hstart : s = [] ++ before ++ (part ++ after) := by rw [hs, List.append_assoc, List.nil_append]
  have hbefore : slice (String.ofList s) 0 first = .ok (String.ofList before) :=
    slice_ofList hstart bytes_nil.symm hfirst
  have hafter : slice (String.ofList s) last (String.ofList s).utf8ByteSize =
      .ok (String.ofList after) := slice_ofList_end hs hlast
  unfold replaceRange
  rw [hpart, hbefore, hafter, String.ofList_append, String.ofList_append, String.ofList_toList]
  rfl

theorem find?_ofList {needle : List Char} :
    find? needle (String.ofList s) = (breakOn needle s).map fun parts => bytes parts.1 := by
  rw [find?, String.toList_ofList]

end ManagedGraph.Text
