import ManagedGraph.Proofs.Pom.Gathered
import ManagedGraph.Proofs.Xml.Nesting

/-!
# Accepted texts

A text is read as a document exactly if its markup is read to the end, each closing tag names the
innermost open element, and all texts between markup can be decoded (`exists_parse_iff`). What
each item keeps holds when all are read (`Gathering.read_induction`).
-/

namespace ManagedGraph

namespace Pom

open Xml

namespace Gathering

variable {g g' : Gathering} {its more : List Item} {openNames openNames' : List String}

/-- The gatherer after some items. -/
def read (g : Gathering) (its : List Item) : Except Fault Gathering :=
  g.steps (its.filterMap Item.event?)

theorem steps_append (g : Gathering) (events more : List Event) :
    g.steps (events ++ more) =
      match g.steps events with
      | .ok g => g.steps more
      | .error fault => .error fault := by
  induction events generalizing g with
  | nil => rfl
  | cons e rest ih =>
      simp only [List.cons_append, steps]
      cases g.step e with
      | ok g => exact ih g
      | error fault => rfl

theorem document_opening (g : Gathering) (name : String) :
    (g.opening name).document = g.document := by
  unfold opening
  dsimp only
  split
  · rfl
  split
  · rfl
  split <;> rfl

/-- Items are read one part after the other. -/
theorem read_append_of_ok (h : g.read its = .ok g') : g.read (its ++ more) = g'.read more := by
  unfold read at h ⊢
  rw [List.filterMap_append, steps_append, h]

theorem exists_of_read_append {last : Gathering} (h : g.read (its ++ more) = .ok last) :
    ∃ g', g.read its = .ok g' ∧ g'.read more = .ok last := by
  cases hits : g.read its with
  | ok g' => exact ⟨g', rfl, read_append_of_ok hits ▸ h⟩
  | error fault =>
      unfold read at h hits
      rw [List.filterMap_append, steps_append, hits] at h
      exact absurd h (by simp)

theorem read_text {raw value : String} (h : decode raw = .ok value) :
    g.read (.text raw :: its) = ({ g with text := value } : Gathering).read its := by
  simp [read, Item.event?, steps, step, h]

theorem read_text_error {raw : String} {fault : EntityFault} (h : decode raw = .error fault) :
    g.read (.text raw :: its) = .error (.invalidText fault) := by
  simp [read, Item.event?, steps, step, h]

/-- Only a text can stop the gatherer. -/
theorem exists_read_iff : (∃ g', g.read its = .ok g') ↔ Decodes its := by
  induction its generalizing g with
  | nil => exact ⟨fun _ _ hraw => absurd hraw (by simp), fun _ => ⟨g, rfl⟩⟩
  | cons item rest ih =>
      rw [decodes_cons]
      cases item with
      | text raw =>
          simp only [Item.text.injEq, forall_eq']
          cases hdecode : decode raw with
          | error fault => simp [read_text_error hdecode]
          | ok value =>
              rw [read_text hdecode, ih]
              simp
      | opening | closing | cdata | ignored =>
          rw [and_iff_right (by simp)]
          exact ih

/-- What each text, each opening and each closing tag keeps holds after all items, if none of them
closes an element around them. -/
theorem read_induction {P : Gathering → Prop} {outer : List String}
    (htext : ∀ (g : Gathering) (text : String), P g → P { g with text := text })
    (hopening : ∀ (g : Gathering) (name : String), .opening name ∈ its → P g → P (g.opening name))
    (hclosing : ∀ (g : Gathering) (name : String) (inner : List String),
      g.path = name :: (inner ++ outer) → P g → P g.closing)
    (hopen : openAfter openNames its = some openNames') (hpath : g.path = openNames ++ outer)
    (hg : P g) (h : g.read its = .ok g') : P g' ∧ g'.path = openNames' ++ outer := by
  induction its generalizing g openNames with
  | nil =>
      obtain rfl := Except.ok.inj h
      obtain rfl := Option.some.inj hopen
      exact ⟨hg, hpath⟩
  | cons item rest ih =>
      have hlater (g : Gathering) (name : String) (hname : .opening name ∈ rest) :
          P g → P (g.opening name) :=
        hopening g name (List.mem_cons_of_mem _ hname)
      cases item with
      | text raw =>
          cases hdecode : decode raw with
          | error fault =>
              rw [read_text_error hdecode] at h
              exact absurd h (by simp)
          | ok value =>
              rw [read_text hdecode] at h
              exact ih (g := { g with text := value }) hlater hopen hpath (htext g value hg) h
      | opening name =>
          have hinner : (g.opening name).path = name :: openNames ++ outer := by
            rw [path_opening, hpath]
            rfl
          exact ih hlater hopen hinner (hopening g name List.mem_cons_self hg) h
      | closing name =>
          obtain ⟨inner, rfl, hrest⟩ := exists_of_openAfter_closing hopen
          have hclosed : g.closing.path = inner ++ outer := by
            rw [path_closing, hpath]
            rfl
          exact ih hlater hrest hclosed (hclosing g name inner hpath hg) h
      | cdata content =>
          exact ih (g := { g with text := content }) hlater hopen hpath (htext g content hg) h
      | ignored => exact ih hlater hopen hpath hg h

/-- The path of the gatherer are the open elements. -/
theorem path_of_read (hopen : openAfter openNames its = some openNames')
    (hpath : g.path = openNames) (h : g.read its = .ok g') : g'.path = openNames' := by
  have hpath' : g.path = openNames ++ [] := by rw [hpath, List.append_nil]
  have hread := read_induction (P := fun _ => True) (fun _ _ _ => trivial) (fun _ _ _ _ => trivial)
    (fun _ _ _ _ _ => trivial) hopen hpath' trivial h
  rw [hread.2, List.append_nil]

end Gathering

namespace Document

variable {text : String} {d : Document}

theorem parse_eq_ok_iff :
    parse text = .ok d ↔
      (document text).fault = none ∧
        (∃ openNames, openAfter [] (document text).items = some openNames) ∧
        ∃ g, Gathering.start.read (document text).items = .ok g ∧ g.document = d := by
  unfold parse ofEvents events
  dsimp only
  cases hopen : openAfter [] (document text).items with
  | none =>
      -- the reading ends with a fault, which comes to light unless a text does so before
      have hends : ∃ fault,
          (nest (document text).fault [] (document text).items).fault = some fault :=
        exists_fault_of_openAfter hopen
      obtain ⟨fault, hfault⟩ := hends
      rw [hfault]
      split <;> simp
  | some openNames =>
      rw [nest_eq hopen]
      unfold Gathering.read
      cases Gathering.start.steps ((document text).items.filterMap Item.event?) with
      | error fault => simp
      | ok g => cases (document text).fault <;> simp

theorem parse_of_toOption (h : (parse text).toOption = some d) : parse text = .ok d := by
  cases hparse : parse text with
  | ok found =>
      rw [hparse] at h
      obtain rfl := Option.some.inj h
      rfl
  | error fault =>
      rw [hparse] at h
      exact absurd h (by simp [Except.toOption])

/-- A text is accepted if its markup is read to the end, its tags are nested and its texts can be
decoded. Elements may be left open. -/
theorem exists_parse_iff :
    (∃ d, parse text = .ok d) ↔
      (document text).fault = none ∧
        (∃ openNames, openAfter [] (document text).items = some openNames) ∧
        Decodes (document text).items := by
  rw [← Gathering.exists_read_iff (g := Gathering.start)]
  constructor
  · rintro ⟨d, h⟩
    obtain ⟨hfault, hopen, g, hread, -⟩ := parse_eq_ok_iff.1 h
    exact ⟨hfault, hopen, g, hread⟩
  · rintro ⟨hfault, hopen, g, hread⟩
    exact ⟨g.document, parse_eq_ok_iff.2 ⟨hfault, hopen, g, hread, rfl⟩⟩

end Document

end Pom

end ManagedGraph
