import ManagedGraph.Proofs.Pom.Lineage

/-!
# Ancestors one after another

Inheritance is associative: a document may inherit from its parent what the parent has inherited,
or from its parent and then from the grandparent. Group and version come out alike if the parent's
own reference names those of the grandparent. So a lineage whose references are consistent can be
merged from the nearest ancestor on (`inherit_one_after_another`).
-/

namespace ManagedGraph

namespace Pom.Document

variable {d parent grandparent : Document} {rest : List Document}

/-- The reference of a document names the group and the version of its parent, if it has one. -/
def RefersTo (d parent : Document) : Prop :=
  ∀ p, d.parent = some p →
    parent.effectiveGroup = some p.group ∧ parent.effectiveVersion = some p.version

section Values

variable {α : Type} {own inherited handed named : Option α}

/-- A value that a reference names may be taken from the reference or from what it refers to. -/
theorem or_or_of_named (h : ∀ a, named = some a → handed = some a) :
    own.or ((inherited.or handed).or named) = (own.or (inherited.or named)).or handed := by
  cases named with
  | none => simp [Option.or_assoc]
  | some a => simp [h a rfl]

theorem or_or_eq_some_of_named {a : α} (h : ∀ a, named = some a → handed = some a)
    (ha : own.or named = some a) : (own.or handed).or named = some a := by
  cases own with
  | some b => exact ha
  | none =>
      have hhanded : handed = some a := h a ha
      rw [hhanded]
      rfl

end Values

theorem RefersTo.group (h : d.RefersTo parent) (group : String)
    (hgroup : d.parent.map ParentReference.group = some group) :
    parent.effectiveGroup = some group := by
  obtain ⟨p, hp, rfl⟩ := Option.map_eq_some_iff.1 hgroup
  exact (h p hp).1

theorem RefersTo.version (h : d.RefersTo parent) (version : String)
    (hversion : d.parent.map ParentReference.version = some version) :
    parent.effectiveVersion = some version := by
  obtain ⟨p, hp, rfl⟩ := Option.map_eq_some_iff.1 hversion
  exact (h p hp).2

/-- A parent is still named by a reference when it has inherited in turn. -/
theorem RefersTo.inherit (h : d.RefersTo parent) (hparent : parent.RefersTo grandparent) :
    d.RefersTo (parent.inherit grandparent) := by
  intro p hp
  obtain ⟨hgroup, hversion⟩ := h p hp
  exact ⟨or_or_eq_some_of_named hparent.group hgroup,
    or_or_eq_some_of_named hparent.version hversion⟩

theorem RefersTo.under (h : d.RefersTo parent) (hrest : (parent :: rest).IsChain RefersTo) :
    d.RefersTo (parent.under rest) := by
  induction rest generalizing d parent with
  | nil => exact h
  | cons grandparent rest ih =>
      rw [List.isChain_cons_cons] at hrest
      exact h.inherit (ih hrest.1 hrest.2)

/-! ## Associativity -/

theorem properties_inherit_assoc (d parent grandparent : Document) :
    (d.inherit (parent.inherit grandparent)).properties =
      ((d.inherit parent).inherit grandparent).properties := by
  apply Std.ExtTreeMap.ext_getElem?
  intro name
  rw [properties_inherit, properties_inherit, properties_inherit, properties_inherit,
    Option.or_assoc]

theorem inherit_assoc (h : parent.RefersTo grandparent) :
    d.inherit (parent.inherit grandparent) = (d.inherit parent).inherit grandparent := by
  have hproperties := properties_inherit_assoc d parent grandparent
  have hgroup : (d.inherit (parent.inherit grandparent)).group =
      ((d.inherit parent).inherit grandparent).group := or_or_of_named h.group
  have hversion : (d.inherit (parent.inherit grandparent)).version =
      ((d.inherit parent).inherit grandparent).version := or_or_of_named h.version
  have hmanagement : (d.inherit (parent.inherit grandparent)).management =
      ((d.inherit parent).inherit grandparent).management := appendNew_assoc
  have hdependencies : (d.inherit (parent.inherit grandparent)).dependencies =
      ((d.inherit parent).inherit grandparent).dependencies := appendNew_assoc
  calc d.inherit (parent.inherit grandparent)
      = ⟨(d.inherit (parent.inherit grandparent)).group, d.artifact,
          (d.inherit (parent.inherit grandparent)).version, d.packaging, d.parent,
          (d.inherit (parent.inherit grandparent)).properties,
          (d.inherit (parent.inherit grandparent)).dependencies,
          (d.inherit (parent.inherit grandparent)).management⟩ := rfl
    _ = (d.inherit parent).inherit grandparent := by
        rw [hgroup, hversion, hproperties, hdependencies, hmanagement]
        rfl

/-- A document takes all from its nearest ancestor, or from one ancestor after the other. -/
theorem under_eq_foldl (h : rest.IsChain RefersTo) : d.under rest = rest.foldl inherit d := by
  induction rest generalizing d with
  | nil => rfl
  | cons parent rest ih =>
      cases rest with
      | nil => rfl
      | cons grandparent rest =>
          rw [List.isChain_cons_cons] at h
          rw [List.foldl_cons, ← ih h.2]
          exact inherit_assoc (h.1.under h.2)

end Pom.Document

namespace Repository

open Pom

/-- Whatever a parent has inherited, a document takes from it the same properties and lists of
declarations, in the same order, as from the parent and the grandparent one after the other. If
the parent's reference, where it has one, names the grandparent's group and version, the documents
are the same in all. So a lineage that is short enough is loaded as its raw documents, one after
the other and the nearest first, if the reference of each parent names group and version of the
next. -/
theorem inherit_one_after_another :
    (∀ d parent grandparent : Document,
      (d.inherit (parent.inherit grandparent)).properties =
          ((d.inherit parent).inherit grandparent).properties ∧
        (d.inherit (parent.inherit grandparent)).management =
          ((d.inherit parent).inherit grandparent).management ∧
        (d.inherit (parent.inherit grandparent)).dependencies =
          ((d.inherit parent).inherit grandparent).dependencies ∧
        (parent.RefersTo grandparent →
          d.inherit (parent.inherit grandparent) = (d.inherit parent).inherit grandparent)) ∧
      ∀ (r : Repository) (m : ModuleVersion) (d : Document) (ancestors : List Document)
        (depth : Nat), r.Lineage m d ancestors → ancestors.length < depth →
        ancestors.IsChain Document.RefersTo →
        r.load depth m = .ok (ancestors.foldl Document.inherit d) := by
  constructor
  · intro d parent grandparent
    exact ⟨Document.properties_inherit_assoc d parent grandparent, appendNew_assoc,
      appendNew_assoc, Document.inherit_assoc⟩
  · intro r m d ancestors depth hlineage hlength hrefers
    rw [← Document.under_eq_foldl hrefers]
    exact load_eq_ok_iff.2 ⟨d, ancestors, hlineage, hlength, rfl⟩

namespace Sample

/-- A module whose parent has a parent. All three manage the library, and the two parents manage
the tool. -/
def family : Repository := .ofTexts
  [(first "child", pomText (element "parent" (coordinatesText "org" "parent" "1"))
      [dependencyText "org" "lib" "3.0" []]),
    (first "parent", pomText (element "parent" (coordinatesText "org" "root" "1"))
      [dependencyText "org" "tool" "2.0" [], dependencyText "org" "lib" "2.0" []]),
    (first "root", pomText (coordinatesText "org" "root" "1")
      [dependencyText "org" "cli" "1.0" [], dependencyText "org" "tool" "1.0" [],
        dependencyText "org" "lib" "1.0" []])]

def child : Document :=
  ⟨none, none, none, none, some ⟨"org", "parent", "1"⟩, ∅, [], [dependency "org" "lib" "3.0"]⟩

def parent : Document :=
  ⟨none, none, none, none, some ⟨"org", "root", "1"⟩, ∅, [],
    [dependency "org" "tool" "2.0", dependency "org" "lib" "2.0"]⟩

def root : Document :=
  ⟨some "org", some "root", some "1", none, none, ∅, [],
    [dependency "org" "cli" "1.0", dependency "org" "tool" "1.0", dependency "org" "lib" "1.0"]⟩

theorem lineage_child : family.Lineage (first "child") child [parent, root] := by
  have hchild : family.read (first "child") = .ok child :=
    read_ofTexts rfl (by decide) (by decide +kernel)
  have hparent : family.read (first "parent") = .ok parent :=
    read_ofTexts rfl (by decide) (by decide +kernel)
  have hroot : family.read (first "root") = .ok root :=
    read_ofTexts rfl (by decide) (by decide +kernel)
  exact .child hchild rfl (.child hparent rfl (.root hroot rfl))

theorem refersTo_root : parent.RefersTo root := by
  intro p hp
  obtain rfl := Option.some.inj hp
  exact ⟨rfl, rfl⟩

theorem load_child_one_after_another :
    parent.RefersTo root ∧ family.Lineage (first "child") child [parent, root] ∧
      child.inherit (parent.inherit root) = (child.inherit parent).inherit root ∧
      family.load 3 (first "child") = .ok ((child.inherit parent).inherit root) ∧
      ((child.inherit parent).inherit root).management =
        [dependency "org" "lib" "3.0", dependency "org" "tool" "2.0",
          dependency "org" "cli" "1.0"] := by
  have hchain : [parent, root].IsChain Document.RefersTo :=
    .cons_cons refersTo_root (.singleton root)
  obtain ⟨hdocuments, hload⟩ := inherit_one_after_another
  exact ⟨refersTo_root, lineage_child, (hdocuments child parent root).2.2.2 refersTo_root,
    hload family (first "child") child [parent, root] 3 lineage_child (by decide) hchain, rfl⟩

end Sample

end Repository

end ManagedGraph
