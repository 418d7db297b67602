import ManagedGraph.Merge
import ManagedGraph.Pom.Document

/-!
# Inheritance

A document takes from its parent what it does not state itself.
-/

namespace ManagedGraph.Pom.Document

/-- A document merged with its parent; the declarations of the document win. -/
def inherit (d parent : Document) : Document :=
  { d with
    group := d.group.or parent.effectiveGroup
    version := d.version.or parent.effectiveVersion
    properties := parent.properties ∪ d.properties
    management := appendNew Declaration.key d.management parent.management
    dependencies := appendNew Declaration.key d.dependencies parent.dependencies }

/-- A document keeps its properties and takes its parent's for other names. -/
theorem properties_inherit (d parent : Document) (name : String) :
    (d.inherit parent).properties[name]? = d.properties[name]?.or parent.properties[name]? :=
  Std.ExtTreeMap.getElem?_union

/-- A document with further property values, which win over its own. -/
def override (d : Document) (overrides : Properties) : Document :=
  { d with properties := d.properties ∪ overrides }

end ManagedGraph.Pom.Document
