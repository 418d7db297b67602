import ManagedGraph.Pom.Reading
import ManagedGraph.Proofs.Pom.Written

/-!
# Gathering from written tags

Tags lead the gatherer from one place to another (`Reads`), and so does each way of writing them
(`Reads.steps_of_written`). An element with children in any order is read child by child
(`Reads.of_isElement`), a list entry by entry (`Reads.of_isList`).
-/

namespace ManagedGraph.Pom

open Xml Gathering

namespace Gathering

/-- The gatherer after an element with a value. -/
def leaf (g : Gathering) (name value : String) : Gathering :=
  ({ g.opening name with text := value } : Gathering).closing

theorem path_opening (g : Gathering) (name : String) : (g.opening name).path = name :: g.path := by
  unfold opening
  dsimp only
  split
  · rfl
  split
  · rfl
  split <;> rfl

theorem text_opening (g : Gathering) (name : String) : (g.opening name).text = "" := by
  unfold opening
  dsimp only
  split
  · rfl
  split
  · rfl
  split <;> rfl

/-- An empty value leaves no text, as no text does. -/
theorem leaf_empty (g : Gathering) (name : String) : g.leaf name "" = (g.opening name).closing := by
  rw [leaf, ← text_opening g name]

theorem path_closing (g : Gathering) : g.closing.path = g.path.tail := rfl

end Gathering

/-- Tags that take the gatherer from one place to another, each closing one naming the innermost
open element. -/
inductive Reads : Gathering → List Tag → Gathering → Prop where
  | nil {g : Gathering} : Reads g [] g
  | opening {g g' : Gathering} {name : String} {tags : List Tag} (hname : isName name = true)
      (hrest : Reads (g.opening name) tags g') : Reads g (.opening name :: tags) g'
  | closing {g g' : Gathering} {name : String} {tags : List Tag} (hname : isName name = true)
      (hopen : g.path.head? = some name) (hrest : Reads g.closing tags g') :
      Reads g (.closing name :: tags) g'
  | leaf {g g' : Gathering} {name value : String} {tags : List Tag} (hname : isName name = true)
      (hvalue : isTrimmed value = true) (hrest : Reads (g.leaf name value) tags g') :
      Reads g (.leaf name value :: tags) g'

namespace Reads

variable {g g' g'' : Gathering} {name : String} {tags more content : List Tag}

theorem append (h : Reads g tags g') (hmore : Reads g' more g'') : Reads g (tags ++ more) g'' := by
  induction h with
  | nil => exact hmore
  | opening hname _ ih => exact .opening hname (ih hmore)
  | closing hname hopen _ ih => exact .closing hname hopen (ih hmore)
  | leaf hname hvalue _ ih => exact .leaf hname hvalue (ih hmore)

/-- An element is left where its content has led. -/
theorem element (hname : isName name = true) (hopen : g'.path.head? = some name)
    (h : Reads (g.opening name) content g') : Reads g (element name content) g'.closing :=
  .opening hname (h.append (.closing hname hopen .nil))

/-- Whichever way tags are written, the gatherer goes where they take it. -/
theorem steps_of_written {s : List Char} (hs : Written tags s) (h : Reads g tags g') :
    g.steps (eventsIn g.path s).items = .ok g' ∧ (eventsIn g.path s).fault = none := by
  -- along the text, the path of the gatherer is the stack of open elements
  induction hs generalizing g with
  | nil =>
      cases h
      rw [eventsIn_nil]
      exact ⟨rfl, rfl⟩
  | gap hgap _ ih =>
      rw [eventsIn_gap _ hgap]
      exact ih h
  | opening _ ih =>
      cases h with
      | opening hname hrest =>
          rw [eventsIn_opening _ hname, ← Gathering.path_opening]
          exact ih hrest
  | @closing name s _ _ ih =>
      cases h with
      | closing hname hopen hrest =>
          obtain ⟨outer, hpath⟩ := List.head?_eq_some_iff.1 hopen
          have ih := ih hrest
          rw [Gathering.path_closing, hpath] at ih
          rw [hpath, eventsIn_closing _ hname]
          exact ih
  | @leaf name value before after s _ hbefore hafter _ ih =>
      cases h with
      | leaf hname hvalue hrest =>
          have ih := ih hrest
          have hpath : (g.leaf name value).path = g.path := by
            simp [Gathering.leaf, Gathering.path_closing, Gathering.path_opening]
          rw [hpath] at ih
          rw [eventsIn_leaf _ hname hvalue hbefore hafter]
          split
          · subst value
            rw [Gathering.leaf_empty] at ih
            exact ih
          · simpa [Reading.cons, Gathering.steps, Gathering.step, Gathering.leaf,
              decode_escape] using ih

/-! ## Elements and lists -/

/-- A value is read as one child of an element. -/
theorem of_field {fields : Fields}
    (hnames : (fields.map Prod.fst).all isName = true)
    (htexts : ∀ text ∈ fields.texts, isTrimmed text = true)
    (hleaf : ∀ value, (name, some value) ∈ fields → g.leaf name value = g')
    (h : fields.Child name tags) : Reads g tags g' := by
  cases h with
  | @leaf value hmem =>
      have htrim : isTrimmed value = true :=
        htexts value (List.mem_filterMap.2 ⟨_, hmem, rfl⟩)
      have hname : isName name = true :=
        List.all_eq_true.1 hnames name (List.mem_map_of_mem (f := Prod.fst) hmem)
      exact .leaf hname htrim (hleaf value hmem ▸ .nil)

section Elements

variable {Child : String → List Tag → Prop} {Requires : String → Prop}
variable (inside : List String → Gathering)

/-- Children in any order are read if each one is read wherever the children before it have led.
Where they lead is fixed by their names. -/
theorem of_children
    (hchild : ∀ seen child tags, Child child tags → child ∉ seen →
      Reads (inside seen) tags (inside (child :: seen)))
    {children : List (String × List Tag)} {seen : List String}
    (hchildren : ∀ child ∈ children, Child child.1 child.2)
    (hnodup : (children.map Prod.fst).Nodup)
    (hnew : ∀ child ∈ children.map Prod.fst, child ∉ seen) :
    ∃ later, (∀ child, child ∈ seen ∨ child ∈ children.map Prod.fst → child ∈ later) ∧
      Reads (inside seen) (children.flatMap Prod.snd) (inside later) := by
  induction children generalizing seen with
  | nil => exact ⟨seen, by simp, .nil⟩
  | cons child rest ih =>
      obtain ⟨hother, hrest⟩ := List.nodup_cons.1 hnodup
      obtain ⟨hfirst, hchildren⟩ := List.forall_mem_cons.1 hchildren
      obtain ⟨hnewFirst, hnew⟩ := List.forall_mem_cons.1 hnew
      have hnewRest : ∀ c ∈ rest.map Prod.fst, c ∉ child.1 :: seen := by
        intro c hc hmem
        rcases List.mem_cons.1 hmem with rfl | hmem
        · exact hother hc
        · exact hnew c hc hmem
      obtain ⟨later, hlater, hread⟩ := ih hchildren hrest hnewRest
      refine ⟨later, ?_, (hchild seen child.1 child.2 hfirst hnewFirst).append hread⟩
      rintro c (hc | hc)
      · exact hlater c (Or.inl (List.mem_cons_of_mem _ hc))
      · rcases List.mem_cons.1 hc with rfl | hc
        · exact hlater child.1 (Or.inl List.mem_cons_self)
        · exact hlater c (Or.inr hc)

/-- An element with children in any order is left with every required child read. -/
theorem of_isElement (hname : isName name = true) (hopen : g.opening name = inside [])
    (hpath : ∀ seen, (inside seen).path.head? = some name)
    (hchild : ∀ seen child tags, Child child tags → child ∉ seen →
      Reads (inside seen) tags (inside (child :: seen)))
    (h : IsElement name Child Requires tags) :
    ∃ seen, (∀ child, Requires child → child ∈ seen) ∧ Reads g tags (inside seen).closing := by
  obtain ⟨children, hchildren, hnodup, hrequired, rfl⟩ := h
  obtain ⟨seen, hseen, hread⟩ := of_children inside hchild hchildren hnodup
    fun _ _ => List.not_mem_nil
  refine ⟨seen, fun child hc => hseen child (Or.inr (hrequired child hc)), ?_⟩
  exact element hname (hpath seen) (hopen ▸ hread)

end Elements

section Lists

variable {α : Type} {Writes : α → List Tag → Prop} {entries : List α}
variable (inside : List α → Gathering)

/-- Entries are read one after another. -/
theorem of_entries (before : List α) {later : List α} {parts : List (List Tag)}
    (hentry : ∀ before entry tags, entry ∈ later → Writes entry tags →
      Reads (inside before) tags (inside (before ++ [entry])))
    (hparts : List.Forall₂ Writes later parts) :
    Reads (inside before) parts.flatten (inside (before ++ later)) := by
  induction hparts generalizing before with
  | nil => simpa using Reads.nil
  | @cons entry tags rest _ hfirst _ ih =>
      have hread := ih (before ++ [entry])
        fun before e tags he => hentry before e tags (List.mem_cons_of_mem _ he)
      rw [List.append_assoc] at hread
      exact (hentry before entry tags List.mem_cons_self hfirst).append hread

theorem of_isList (hname : isName name = true) (hopen : g.opening name = inside [])
    (hpath : (inside entries).path.head? = some name)
    (hentry : ∀ before entry tags, entry ∈ entries → Writes entry tags →
      Reads (inside before) tags (inside (before ++ [entry])))
    (h : IsList name Writes entries tags) : Reads g tags (inside entries).closing := by
  obtain ⟨parts, hparts, rfl⟩ := h
  have hread := of_entries inside [] hentry hparts
  exact element hname hpath (hopen ▸ hread)

end Lists

end Reads

end ManagedGraph.Pom
