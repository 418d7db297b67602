import ManagedGraph.Proofs.Xml.Pieces

/-!
# Nested tags

Reading a text keeps the names of the open elements (`openAfter`) and stops at a closing tag that
names another one (`nest_append`, `exists_fault_of_openAfter`). What is read to the end is well
nested but for elements that are not closed (`leavesOpen_of_openAfter`), and well nested if as many
tags close elements as open them.
-/

namespace ManagedGraph.Xml

/-- What a reader is told of an item. -/
def Item.event? : Item → Option Event
  | .text raw => some (.text raw)
  | .opening name => some (.opening name)
  | .closing _ => some .closing
  | .cdata content => some (.cdata content)
  | .ignored => none

/-- The names of the elements that are open after some items, the innermost first, if each closing
tag names the innermost open element. -/
def openAfter : List String → List Item → Option (List String)
  | openNames, [] => some openNames
  | openNames, .opening name :: rest => openAfter (name :: openNames) rest
  | openNames, .closing name :: rest =>
      match openNames with
      | [] => none
      | inner :: outer => if inner = name then openAfter outer rest else none
  | openNames, .text _ :: rest => openAfter openNames rest
  | openNames, .cdata _ :: rest => openAfter openNames rest
  | openNames, .ignored :: rest => openAfter openNames rest

variable {openNames openNames' : List String} {name : String} {its more : List Item}
variable {fault : Option Fault}

/-- Whether an item opens an element. -/
def Item.isOpening : Item → Bool
  | .opening _ => true
  | _ => false

/-- Whether an item closes an element. -/
def Item.isClosing : Item → Bool
  | .closing _ => true
  | _ => false

/-- Whether an item is a tag. -/
def Item.isTag (item : Item) : Bool :=
  item.isOpening || item.isClosing

/-- Whether an item is text of an element. -/
def Item.isCharacterData : Item → Bool
  | .text _ | .cdata _ => true
  | _ => false

theorem openAfter_of_not_isTag {item : Item} (h : item.isTag = false) :
    openAfter openNames (item :: its) = openAfter openNames its := by
  cases item with
  | opening => exact absurd h (by simp [Item.isTag, Item.isOpening])
  | closing => exact absurd h (by simp [Item.isTag, Item.isClosing])
  | text | cdata | ignored => rfl

/-- Data without tags. -/
def IsData (its : List Item) : Prop :=
  ∀ item ∈ its, item.isTag = false

theorem isData_append (h : IsData its) (hmore : IsData more) :
    IsData (its ++ more) := by
  intro item hitem
  rcases List.mem_append.1 hitem with hitem | hitem
  · exact h item hitem
  · exact hmore item hitem

theorem isData_singleton {item : Item} (h : item.isTag = false) : IsData [item] := by
  intro other hother
  obtain rfl := List.mem_singleton.1 hother
  exact h

theorem isData_textItems (run : List Char) : IsData (textItems run) := by
  rcases textItems_cases run with hitems | ⟨raw, hitems⟩
  · rw [hitems]
    exact fun _ hitem => absurd hitem (by simp)
  · rw [hitems]
    exact isData_singleton rfl

theorem openAfter_of_isData (h : IsData its) (openNames : List String) :
    openAfter openNames its = some openNames := by
  induction its with
  | nil => rfl
  | cons item rest ih =>
      obtain ⟨hitem, hrest⟩ := List.forall_mem_cons.1 h
      rw [openAfter_of_not_isTag hitem, ih hrest]

theorem openAfter_textItems (openNames : List String) (run : List Char) :
    openAfter openNames (textItems run) = some openNames :=
  openAfter_of_isData (isData_textItems run) openNames

theorem openAfter_closing (outer : List String) (its : List Item) (name : String) :
    openAfter (name :: outer) (.closing name :: its) = openAfter outer its :=
  if_pos rfl

theorem exists_of_openAfter_closing
    (h : openAfter openNames (.closing name :: its) = some openNames') :
    ∃ outer, openNames = name :: outer ∧ openAfter outer its = some openNames' := by
  cases openNames with
  | nil => exact absurd h (by simp [openAfter])
  | cons inner outer =>
      by_cases hname : inner = name
      · subst hname
        exact ⟨outer, rfl, by rwa [openAfter_closing] at h⟩
      · exact absurd h (by simp [openAfter, hname])

theorem openAfter_append (openNames : List String) (its more : List Item) :
    openAfter openNames (its ++ more) =
      (openAfter openNames its).bind fun names => openAfter names more := by
  fun_induction openAfter openNames its with
  | case1 => rfl
  | case2 _ _ _ ih => exact ih
  | case3 => rfl
  | case4 _ _ _ ih =>
      rw [List.cons_append, openAfter_closing]
      exact ih
  | case5 _ _ _ _ hname => simp [openAfter, hname]
  | case6 _ _ _ ih | case7 _ _ _ ih => exact ih
  | case8 _ _ ih => exact ih

/-- Elements around a text do not matter to it. -/
theorem openAfter_append_right (outer : List String)
    (h : openAfter openNames its = some openNames') :
    openAfter (openNames ++ outer) its = some (openNames' ++ outer) := by
  fun_induction openAfter openNames its with
  | case1 =>
      obtain rfl := Option.some.inj h
      rfl
  | case2 _ _ _ ih => exact ih h
  | case3 => exact absurd h (by simp)
  | case4 _ _ _ ih =>
      rw [List.cons_append, openAfter_closing]
      exact ih h
  | case5 => exact absurd h (by simp)
  | case6 _ _ _ ih | case7 _ _ _ ih => exact ih h
  | case8 _ _ ih => exact ih h

/-! ## What a reader is told -/

/-- A reader is told of all items as long as tags are nested. -/
theorem nest_append (h : openAfter openNames its = some openNames') :
    nest fault openNames (its ++ more) =
      (nest fault openNames' more).prepend (its.filterMap Item.event?) := by
  fun_induction openAfter openNames its with
  | case1 =>
      obtain rfl := Option.some.inj h
      rfl
  | case2 openNames name rest ih =>
      rw [List.cons_append, nest, ih h]
      rfl
  | case3 => exact absurd h (by simp)
  | case4 name rest outer ih =>
      rw [List.cons_append, nest, if_pos rfl, ih h]
      rfl
  | case5 => exact absurd h (by simp)
  | case6 openNames raw rest ih | case7 openNames content rest ih =>
      rw [List.cons_append, nest, ih h]
      rfl
  | case8 openNames rest ih =>
      rw [List.cons_append, nest, ih h]
      rfl

theorem nest_eq (h : openAfter openNames its = some openNames') :
    nest fault openNames its = ⟨its.filterMap Item.event?, fault⟩ := by
  have hnest : nest fault openNames (its ++ []) =
      (nest fault openNames' []).prepend (its.filterMap Item.event?) := nest_append h
  rw [List.append_nil] at hnest
  rw [hnest]
  simp [nest, Reading.prepend, Reading.ended]

/-- A closing tag that does not name the innermost open element is a fault. -/
theorem exists_fault_of_openAfter (h : openAfter openNames its = none) :
    ∃ f, (nest fault openNames its).fault = some f := by
  fun_induction openAfter openNames its with
  | case1 => exact absurd h (by simp)
  | case2 _ _ _ ih => exact ih h
  | case3 => exact ⟨_, rfl⟩
  | case4 name rest outer ih =>
      obtain ⟨f, hf⟩ := ih h
      refine ⟨f, ?_⟩
      simpa [nest, Reading.cons] using hf
  | case5 name rest inner outer hname =>
      refine ⟨.mismatchedClosing inner name, ?_⟩
      simp [nest, hname, Reading.ended]
  | case6 _ _ _ ih | case7 _ _ _ ih => exact ih h
  | case8 _ _ ih => exact ih h

/-! ## Balanced tags -/

/-- Items whose tags are well nested, each element being closed. -/
inductive Balanced : List Item → Prop where
  | nil : Balanced []
  | data {item : Item} {rest : List Item} (hitem : item.isTag = false) (hrest : Balanced rest) :
      Balanced (item :: rest)
  | element {name : String} {content rest : List Item} (hcontent : Balanced content)
      (hrest : Balanced rest) : Balanced (.opening name :: (content ++ .closing name :: rest))

/-- Items whose tags are well nested but for elements that are not closed, the outermost first. -/
inductive LeavesOpen : List String → List Item → Prop where
  | balanced {its : List Item} (h : Balanced its) : LeavesOpen [] its
  | opening {name : String} {names : List String} {before rest : List Item}
      (hbefore : Balanced before) (hrest : LeavesOpen names rest) :
      LeavesOpen (name :: names) (before ++ .opening name :: rest)

theorem Balanced.append (h : Balanced its) (hmore : Balanced more) : Balanced (its ++ more) := by
  induction h with
  | nil => exact hmore
  | data hitem _ ih => exact .data hitem ih
  | element hcontent _ _ ih =>
      rw [List.cons_append, List.append_assoc, List.cons_append]
      exact .element hcontent ih

theorem LeavesOpen.append_left {names : List String} (h : Balanced its)
    (hmore : LeavesOpen names more) : LeavesOpen names (its ++ more) := by
  cases hmore with
  | balanced hmore => exact .balanced (h.append hmore)
  | opening hbefore hrest =>
      rw [← List.append_assoc]
      exact .opening (h.append hbefore) hrest

theorem openAfter_of_balanced (h : Balanced its) : openAfter openNames its = some openNames := by
  induction h generalizing openNames with
  | nil => rfl
  | data hitem _ ih => rw [openAfter_of_not_isTag hitem, ih]
  | element _ _ ihcontent ihrest =>
      rw [openAfter, openAfter_append, ihcontent]
      simp only [Option.bind_some, openAfter_closing]
      exact ihrest

/-! ### Counting tags -/

theorem Balanced.countP_eq (h : Balanced its) :
    its.countP Item.isOpening = its.countP Item.isClosing := by
  induction h with
  | nil => rfl
  | data hitem _ ih =>
      simp only [Item.isTag, Bool.or_eq_false_iff] at hitem
      simp [hitem, ih]
  | element _ _ ihcontent ihrest =>
      simp only [List.countP_cons, List.countP_append, Item.isOpening, Item.isClosing, if_true,
        Bool.false_eq_true, if_false]
      omega

theorem LeavesOpen.countP_eq {names : List String} (h : LeavesOpen names its) :
    its.countP Item.isOpening = its.countP Item.isClosing + names.length := by
  induction h with
  | balanced h => exact h.countP_eq
  | opening hbefore _ ih =>
      have hcount := hbefore.countP_eq
      simp only [List.countP_cons, List.countP_append, Item.isOpening, Item.isClosing, if_true,
        Bool.false_eq_true, if_false, List.length_cons]
      omega

/-- All elements are closed if there are as many closing tags as opening ones. -/
theorem LeavesOpen.balanced_of_countP {names : List String} (h : LeavesOpen names its)
    (hcount : its.countP Item.isClosing = its.countP Item.isOpening) : Balanced its := by
  have hnames := h.countP_eq
  cases h with
  | balanced h => exact h
  | opening =>
      simp only [List.length_cons] at hnames
      omega

/-! ### Reading nested tags -/

/-- An element that is opened is closed, or its content leaves elements open. -/
theorem closed_or_leavesOpen (h : openAfter (name :: openNames) its = some openNames') :
    (∃ content rest, its = content ++ .closing name :: rest ∧ Balanced content ∧
        openAfter openNames rest = some openNames') ∨
      ∃ names, openNames' = names.reverse ++ name :: openNames ∧ LeavesOpen names its := by
  induction hn : its.length using Nat.strong_induction_on generalizing its name openNames with
  | _ n ih =>
  cases its with
  | nil =>
      obtain rfl := Option.some.inj h
      exact Or.inr ⟨[], rfl, .balanced .nil⟩
  | cons item rest =>
      have hrest : rest.length < n := by
        rw [← hn]
        exact Nat.lt_succ_self _
      cases item with
      | closing found =>
          obtain ⟨outer, hnames, hrest⟩ := exists_of_openAfter_closing h
          obtain ⟨rfl, rfl⟩ := List.cons.inj hnames
          exact Or.inl ⟨[], rest, rfl, .nil, hrest⟩
      | opening inner =>
          have hinner : openAfter (inner :: name :: openNames) rest = some openNames' := h
          rcases ih _ hrest hinner rfl with ⟨content, after, rfl, hcontent, hafter⟩ |
            ⟨names, rfl, hnames⟩
          · have hlength : after.length < n := by
              simp only [List.length_append, List.length_cons] at hrest
              omega
            rcases ih _ hlength hafter rfl with ⟨more, last, rfl, hmore, hlast⟩ |
              ⟨names, rfl, hnames⟩
            · refine Or.inl ⟨.opening inner :: (content ++ .closing inner :: more), last, ?_,
                .element hcontent hmore, hlast⟩
              simp
            · refine Or.inr ⟨names, rfl, ?_⟩
              have hfront : Balanced (.opening inner :: (content ++ .closing inner :: [])) :=
                .element hcontent .nil
              simpa using LeavesOpen.append_left hfront hnames
          · refine Or.inr ⟨inner :: names, by simp, ?_⟩
            have hleaves : LeavesOpen (inner :: names) ([] ++ .opening inner :: rest) :=
              .opening .nil hnames
            exact hleaves
      | text | cdata | ignored =>
          have hsame : openAfter (name :: openNames) rest = some openNames' := h
          rcases ih _ hrest hsame rfl with ⟨content, after, rfl, hcontent, hafter⟩ |
            ⟨names, rfl, hnames⟩
          · exact Or.inl ⟨_ :: content, after, rfl, .data rfl hcontent, hafter⟩
          · exact Or.inr ⟨names, rfl, LeavesOpen.append_left (.data rfl .nil) hnames⟩

/-- What is read to the end is well nested but for elements that are not closed. -/
theorem leavesOpen_of_openAfter (h : openAfter [] its = some openNames') :
    LeavesOpen openNames'.reverse its := by
  -- within another element, that one would be closed by a tag that now closes nothing
  have houter := openAfter_append_right [""] h
  rw [List.nil_append] at houter
  rcases closed_or_leavesOpen houter with ⟨content, rest, rfl, hcontent, -⟩ | ⟨names, hnames, h⟩
  · rw [openAfter_append, openAfter_of_balanced hcontent] at h
    exact absurd h (by simp [openAfter])
  · rw [List.append_cancel_right hnames, List.reverse_reverse]
    exact h

end ManagedGraph.Xml
