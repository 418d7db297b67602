import ManagedGraph.Proofs.Pom.Scanning

/-!
# Values without references

If no value is empty or holds a character of an opener, then a value that has taken the place of a
reference forms no opener with the text around it: what was searched is sealed (`Sealed`), whatever
follows. So the search goes on as if it had started behind the value, and interpolation is one pass
over the references of the original text (`interpolate_of_plain_values`).
-/

namespace ManagedGraph.Pom

namespace Interpolation

variable {value? : List Char → Option (List Char)} {budget limit : Nat} {x : Split} {p : Part}
  {u v : List Char}

/-! ## One pass over the references -/

/-- A part with the value of its name in place of the reference, if there is one. -/
def Part.filled (value? : List Char → Option (List Char)) (p : Part) : List Char :=
  p.literal ++ (value? p.name).getD (reference p.name)

/-- A text with values in place of the first references whose names have one, up to a limit. -/
def Split.filled (value? : List Char → Option (List Char)) (limit : Nat) (x : Split) : List Char :=
  (x.parts.zipIdx.flatMap fun entry =>
    let earlier := (x.parts.take entry.2).countP fun p => (value? p.name).isSome
    if earlier < limit then entry.1.filled value? else entry.1.text) ++ x.rest

@[simp] theorem Split.filled_zero : x.filled value? 0 = x.text := by
  have hparts : x.parts.flatMap Part.text = x.parts.zipIdx.flatMap fun entry => entry.1.text := by
    rw [← List.flatMap_map Prod.fst Part.text, List.zipIdx_map_fst]
  rw [text, hparts]
  simp [filled]

/-- A first reference with a value counts towards the limit. -/
theorem Split.filled_cons : (x.cons p).filled value? limit =
    (if 0 < limit then p.filled value? else p.text) ++
      x.filled value? (limit - if (value? p.name).isSome then 1 else 0) := by
  unfold filled cons
  rw [List.zipIdx_cons', List.flatMap_cons, List.flatMap_map, List.append_assoc]
  congr 3
  funext entry
  simp [List.countP_cons, Nat.lt_sub_iff_add_lt]

theorem Split.filled_cons_of_none (h : value? p.name = none) :
    (x.cons p).filled value? (limit + 1) = p.text ++ x.filled value? (limit + 1) := by
  simp [filled_cons, Part.filled, Part.text, h]

theorem Split.filled_cons_of_some {value : List Char} (h : value? p.name = some value) :
    (x.cons p).filled value? (limit + 1) = p.literal ++ value ++ x.filled value? limit := by
  simp [filled_cons, Part.filled, h]

/-! ## Sealed texts -/

/-- Whatever follows the text, an opener begins only behind it. -/
def Sealed (u : List Char) : Prop :=
  ∀ v before after, u ++ v = before ++ opener ++ after → u <+: before

theorem sealed_nil : Sealed [] :=
  fun _ _ _ _ => List.nil_prefix

/-- Behind a sealed text an opener is one of the text that follows. -/
theorem Sealed.exists_of_append {before after : List Char} (hu : Sealed u)
    (h : u ++ v = before ++ opener ++ after) :
    ∃ b, before = u ++ b ∧ v = b ++ opener ++ after := by
  obtain ⟨b, rfl⟩ := hu v before after h
  rw [List.append_assoc, List.append_assoc, List.append_cancel_left_eq, ← List.append_assoc] at h
  exact ⟨b, rfl, h⟩

theorem Sealed.append (hu : Sealed u) (hv : Sealed v) : Sealed (u ++ v) := by
  intro w before after h
  rw [List.append_assoc] at h
  obtain ⟨b, rfl, hrest⟩ := hu.exists_of_append h
  rw [List.prefix_append_right_inj]
  exact hv w b after hrest

theorem Sealed.isNext (hu : Sealed u) (hp : p.IsNext) :
    (⟨u ++ p.literal, p.name⟩ : Part).IsNext where
  opens := by
    rintro ⟨before, after, h⟩
    rw [List.append_assoc u] at h
    obtain ⟨b, -, hrest⟩ := hu.exists_of_append h.symm
    exact hp.opens ⟨b, after, hrest.symm⟩
  closes := hp.closes

/-- A value that forms no opener, not even with what stands before or behind it. -/
def IsPlain (value : List Char) : Prop :=
  value ≠ [] ∧ ∀ c ∈ opener, c ∉ value

theorem IsPlain.occurs_eq_false {value name : List Char} (h : IsPlain value) :
    Text.occurs (reference name) value = false := by
  rw [Text.occurs, Option.isSome_eq_false_iff, Option.isNone_iff_eq_none, Text.breakOn_eq_none_iff]
  intro hwithin
  exact h.2 '$' (by simp [opener]) (hwithin.subset (by simp [reference, opener]))

/-- An opener in two texts is within the first, within the second, or across. -/
theorem append_cases_of_opener {before after : List Char}
    (h : u ++ v = before ++ opener ++ after) :
    opener <:+: u ∨ (∃ b, before = u ++ b ∧ v = b ++ opener ++ after) ∨
      '$' ∈ u.getLast? ∧ '\x7b' ∈ v.head? := by
  rw [List.append_assoc] at h
  rcases List.append_eq_append_iff.1 h with ⟨b, rfl, rfl⟩ | ⟨begun, rfl, hrest⟩
  · exact Or.inr (Or.inl ⟨b, rfl, by simp⟩)
  · rcases begun with _ | ⟨dollar, _ | ⟨brace, begun⟩⟩
    · exact Or.inr (Or.inl ⟨[], by simp, by simpa using hrest.symm⟩)
    · obtain ⟨rfl, hbrace⟩ : '$' = dollar ∧ '\x7b' :: after = v := by simpa [opener] using hrest
      exact Or.inr (Or.inr ⟨by simp, by simp [← hbrace]⟩)
    · obtain ⟨rfl, rfl, -⟩ : '$' = dollar ∧ '\x7b' = brace ∧ _ := by simpa [opener] using hrest
      exact Or.inl ⟨before, begun, by simp [opener]⟩

/-- What was searched is sealed by a plain value at its end. -/
theorem Part.IsNext.sealed_append {value : List Char} (hp : p.IsNext) (hvalue : IsPlain value) :
    Sealed (p.literal ++ value) := by
  obtain ⟨hne, hplain⟩ := hvalue
  have hdollar : '$' ∉ value := hplain '$' (by simp [opener])
  have hbrace : '\x7b' ∉ value := hplain '\x7b' (by simp [opener])
  have hfree : ¬ opener <:+: p.literal ++ value := by
    rintro ⟨before, after, h⟩
    rcases append_cases_of_opener h.symm with hliteral | ⟨b, -, rfl⟩ | ⟨-, hhead⟩
    · exact hp.opens (hliteral.trans (List.prefix_append _ _).isInfix)
    · exact hdollar (by simp [opener])
    · exact hbrace (List.mem_of_mem_head? hhead)
  intro v before after h
  rcases append_cases_of_opener h with hwithin | ⟨b, rfl, -⟩ | ⟨hlast, -⟩
  · exact absurd hwithin hfree
  · exact List.prefix_append _ b
  · have hlast' : value.getLast hne = '$' := by
      simpa [List.getLast?_append, List.getLast?_eq_some_getLast hne] using hlast
    exact absurd (hlast' ▸ List.getLast_mem hne) hdollar

/-! ## Interpolation -/

/-- A reference behind a sealed text is found as if the search had started there. -/
theorem Sealed.firstReference_append_cons (hu : Sealed u) (hp : p.IsNext) :
    firstReference (u ++ (x.cons p).text) = some (u ++ p.literal, p.name, x.text) :=
  firstReference_eq_some_iff.2 ⟨hu.isNext hp, by simp [Part.text]⟩

theorem Sealed.firstReference_append_rest {rest : List Char} (hu : Sealed u)
    (hrest : (⟨[], rest⟩ : Split).LeftToRight) : firstReference (u ++ rest) = none := by
  rw [firstReference_eq_none_iff]
  intro before after h
  obtain ⟨b, -, hopens⟩ := hu.exists_of_append h
  exact hrest.rest b after hopens

/-- Behind a sealed text interpolation is one pass over the references. -/
theorem substitute_append_text (hplain : ∀ name value, value? name = some value → IsPlain value)
    (hu : Sealed u) (hx : x.LeftToRight) :
    substitute value? budget (u ++ x.text) = u ++ x.filled value? budget := by
  obtain ⟨parts, rest⟩ := x
  -- the search goes on behind a reference that stays, and behind a value as if it had done so
  induction parts generalizing u budget with
  | nil => exact substitute_of_none (hu.firstReference_append_rest hx)
  | cons p parts ih =>
      obtain ⟨hp, hparts⟩ := Split.leftToRight_cons_iff (x := ⟨parts, rest⟩).1 hx
      have hfirst := hu.firstReference_append_cons (x := ⟨parts, rest⟩) hp
      have hcons : (⟨p :: parts, rest⟩ : Split) = Split.cons p ⟨parts, rest⟩ := rfl
      rw [hcons]
      cases budget with
      | zero => simp
      | succ budget =>
          cases hvalue : value? p.name with
          | none =>
              have hmore : substitute value? (budget + 1) ([] ++ (Split.mk parts rest).text) =
                  [] ++ (Split.mk parts rest).filled value? (budget + 1) :=
                ih sealed_nil hparts
              rw [List.nil_append, List.nil_append] at hmore
              rw [substitute_of_kept hfirst (by simp [hvalue]), hmore,
                Split.filled_cons_of_none hvalue]
              simp [Part.text]
          | some value =>
              have hvalue' : IsPlain value := hplain _ _ hvalue
              have hsealed : Sealed (u ++ (p.literal ++ value)) :=
                hu.append (hp.sealed_append hvalue')
              rw [substitute_of_value hfirst hvalue hvalue'.occurs_eq_false,
                Split.filled_cons_of_some hvalue]
              simpa using ih hsealed hparts

end Interpolation

namespace Document

open Interpolation

/-- All values that a document states. What a name has for a value is one of them. -/
def values (d : Document) : List String :=
  d.effectiveGroup.toList ++ d.artifact.toList ++ d.effectiveVersion.toList ++
    d.packaging.toList ++ (d.parent.map ParentReference.group).toList ++
      (d.parent.map ParentReference.version).toList ++ d.properties.toList.map Prod.snd

theorem mem_values_of_value? {d : Document} {name value : String}
    (h : d.value? name = some value) : value ∈ d.values := by
  unfold value? at h
  split at h
  -- the last case is that of a property
  rotate_right
  · exact List.mem_append_right _
      (List.mem_map.2 ⟨_, Std.ExtTreeMap.mem_toList_iff_getElem?_eq_some.2 h, rfl⟩)
  all_goals simp [values, h]

/-- There is one way to take a text apart from left to right into references, each from the next
opener to the first closer after it, and literal text. If no value that a document has for a name
is empty or holds a dollar sign or an opening brace, then interpolation puts values in place of the
first references that have one, up to the limit, and keeps everything else. -/
theorem interpolate_of_plain_values (d : Document)
    (h : ∀ name value, d.value? name = some value →
      value ≠ "" ∧ '$' ∉ value.toList ∧ '\x7b' ∉ value.toList) (s : String) :
    (∀ x : Split, x.text = s.toList ∧ x.LeftToRight ↔ x = split s.toList) ∧
      d.interpolate s = String.ofList ((split s.toList).filled d.valueOf limit) := by
  constructor
  · intro x
    rw [← split_eq_iff, eq_comm]
  · have hplain : ∀ name value, d.valueOf name = some value → IsPlain value := by
      intro name value hvalue
      obtain ⟨value, hlookup, rfl⟩ := Option.map_eq_some_iff.1 hvalue
      obtain ⟨hne, hdollar, hbrace⟩ := h _ value hlookup
      exact ⟨by simpa using hne, by simp [opener, hdollar, hbrace]⟩
    have hfilled : substitute d.valueOf limit ([] ++ (split s.toList).text) =
        [] ++ (split s.toList).filled d.valueOf limit :=
      substitute_append_text hplain sealed_nil (leftToRight_split s.toList)
    rw [List.nil_append, List.nil_append, text_split] at hfilled
    rw [interpolate_eq, hfilled]

/-- A document with a property that a project variable shadows, and a value that closes a
reference. -/
def released : Document :=
  { blank with
    version := some "2.0"
    properties := Std.ExtTreeMap.ofList [("project.version", "1.0"), ("x", "\x7d")] }

theorem interpolate_of_plain_values_released :
    (∀ name value, released.value? name = some value →
      value ≠ "" ∧ '$' ∉ value.toList ∧ '\x7b' ∉ value.toList) ∧
      released.interpolate "$${x}-${y}-${project.version}$\x7b" =
        "$\x7d-${y}-2.0$\x7b" := by
  have hvalues : released.values = ["2.0", "1.0", "\x7d"] := by decide
  have hplain : ∀ name value, released.value? name = some value →
      value ≠ "" ∧ '$' ∉ value.toList ∧ '\x7b' ∉ value.toList := by
    have hall : ∀ value ∈ ["2.0", "1.0", "\x7d"],
        value ≠ "" ∧ '$' ∉ value.toList ∧ '\x7b' ∉ value.toList := by decide
    intro name value hvalue
    exact hall value (hvalues ▸ mem_values_of_value? hvalue)
  have hx : firstReference "$${x}-${y}-${project.version}$\x7b".toList =
      some (['$'], ['x'], "-${y}-${project.version}$\x7b".toList) := by decide
  have hy : firstReference "-${y}-${project.version}$\x7b".toList =
      some (['-'], ['y'], "-${project.version}$\x7b".toList) := by decide
  have hversion : firstReference "-${project.version}$\x7b".toList =
      some (['-'], "project.version".toList, "$\x7b".toList) := by decide
  have hrest : firstReference "$\x7b".toList = none := by decide
  have hsplit : Interpolation.split "$${x}-${y}-${project.version}$\x7b".toList =
      ⟨[⟨['$'], ['x']⟩, ⟨['-'], ['y']⟩, ⟨['-'], "project.version".toList⟩], ['$', '\x7b']⟩ := by
    rw [split_of_some hx, split_of_some hy, split_of_some hversion, split_of_none hrest]
    rfl
  have hfilled : (Interpolation.split "$${x}-${y}-${project.version}$\x7b".toList).filled
      released.valueOf limit = "$\x7d-${y}-2.0$\x7b".toList := by
    rw [hsplit]
    decide
  refine ⟨hplain, ?_⟩
  rw [(interpolate_of_plain_values released hplain _).2, hfilled, String.ofList_toList]

end Document

end ManagedGraph.Pom
