import ManagedGraph.Text.Blank

/-!
# Versions

A version is a text. A *dynamic* version selects among candidates instead of naming
one (`latest.release`, `1.+`, `[1.0,2.0)`, `]1.0,2.0[`, `(,2.0]`); a *concrete* version
can be managed.
-/

namespace ManagedGraph.Version

/-- Whether a requested version selects from a set of candidates. Blanks around it do
not count. -/
def isDynamic (version : String) : Bool :=
  let v := Text.trim version.toList
  "latest.".toList.isPrefixOf v || v.head? == some '[' || v.head? == some ']' ||
    v.head? == some '(' || v.getLast? == some '+'

/-- Whether a version can be managed: it is not blank and not dynamic. -/
def isConcrete (version : String) : Bool :=
  !(Text.trim version.toList).isEmpty && !isDynamic version

end ManagedGraph.Version
