import ManagedGraph.Proofs.Xml.Written

/-!
# Character data

A text between markup stands for itself but for references, and it is decoded exactly if each `&`
begins one that resolves (`decodeFrom_eq_ok_iff`). Texts can be decoded piece by piece. The
beginning of a text that can be decoded can be decoded too, unless it ends within a reference
(`CharacterData.decodes_or_dangles`).
-/

namespace ManagedGraph.Xml

/-- A text as written, and the text that it stands for. -/
inductive CharacterData : List Char → List Char → Prop where
  | nil : CharacterData [] []
  | char {c : Char} {raw value : List Char} (hc : c ≠ '&') (h : CharacterData raw value) :
      CharacterData (c :: raw) (c :: value)
  | reference {name raw value : List Char} {d : Char} (hname : name.all isEntityName = true)
      (hentity : ∀ start, resolveEntity start name = .ok d) (h : CharacterData raw value) :
      CharacterData ('&' :: (name ++ ';' :: raw)) (d :: value)

/-- What a reference stands for does not depend on where it stands. -/
theorem resolveEntity_eq_ok {start other : Nat} {name : List Char} {d : Char}
    (h : resolveEntity start name = .ok d) : resolveEntity other name = .ok d := by
  unfold resolveEntity at h ⊢
  split at h
  · exact h
  · split at h
    · exact h
    · exact absurd h (by simp)

theorem decodeFrom_of_characterData {total start : Nat} {raw value : List Char}
    (h : CharacterData raw value) : decodeFrom total start raw = .ok value := by
  induction h generalizing start with
  | nil => exact decodeFrom_nil
  | char hc _ ih =>
      rw [decodeFrom_of_ne hc, ih]
      rfl
  | reference hname hentity _ ih =>
      rw [decodeFrom_entity _ _ hname (hentity _), ih]
      rfl

theorem characterData_of_decodeFrom {total start : Nat} {raw value : List Char}
    (h : decodeFrom total start raw = .ok value) : CharacterData raw value := by
  fun_induction decodeFrom total start raw generalizing value with
  | case1 =>
      obtain rfl := Except.ok.inj h
      exact .nil
  | case2 => exact absurd h (by simp)
  | case3 start rest after hdrop name d hentity =>
      rename_i ih
      cases hafter : decodeFrom total (start + byteLength name + 2) after with
      | error fault =>
          rw [hafter] at h
          exact absurd h (by simp [Except.map])
      | ok value' =>
          rw [hafter] at h
          obtain rfl := Except.ok.inj h
          have hrest : rest = name ++ ';' :: after := by
            rw [← hdrop, List.takeWhile_append_dropWhile]
          rw [hrest]
          exact .reference List.all_takeWhile (fun _ => resolveEntity_eq_ok hentity) (ih hafter)
  | case4 => exact absurd h (by simp)
  | case5 start c rest hc ih =>
      cases hrest : decodeFrom total (start + c.utf8Size) rest with
      | error fault =>
          rw [hrest] at h
          exact absurd h (by simp [Except.map])
      | ok value' =>
          rw [hrest] at h
          obtain rfl := Except.ok.inj h
          exact .char hc (ih hrest)

theorem decodeFrom_eq_ok_iff {total start : Nat} {raw value : List Char} :
    decodeFrom total start raw = .ok value ↔ CharacterData raw value :=
  ⟨characterData_of_decodeFrom, decodeFrom_of_characterData⟩

theorem decode_eq_ok_iff {raw : List Char} {value : String} :
    decode (String.ofList raw) = .ok value ↔ CharacterData raw value.toList := by
  have hchars : decodeFrom (byteLength raw) 0 raw = .ok value.toList ↔
      CharacterData raw value.toList := decodeFrom_eq_ok_iff
  unfold decode
  rw [String.toList_ofList, ← hchars]
  cases decodeFrom (byteLength raw) 0 raw with
  | error fault => simp [Except.map]
  | ok chars =>
      simp only [Except.map, Except.ok.injEq]
      constructor
      · rintro rfl
        rw [String.toList_ofList]
      · intro h
        rw [h, String.ofList_toList]

/-! ## Pieces of a text -/

/-- A text that ends within a reference. -/
def Dangles (raw : List Char) : Prop :=
  ∃ before name, raw = before ++ '&' :: name ∧ name.all isEntityName = true

theorem Dangles.cons {raw : List Char} (c : Char) (h : Dangles raw) : Dangles (c :: raw) := by
  obtain ⟨before, name, rfl, hname⟩ := h
  exact ⟨c :: before, name, rfl, hname⟩

theorem Dangles.append_left {raw : List Char} (before : List Char) (h : Dangles raw) :
    Dangles (before ++ raw) := by
  induction before with
  | nil => exact h
  | cons c before ih => exact ih.cons c

theorem Dangles.append_right {raw more : List Char} (h : Dangles raw)
    (hmore : more.all isEntityName = true) : Dangles (raw ++ more) := by
  obtain ⟨before, name, rfl, hname⟩ := h
  refine ⟨before, name ++ more, by simp, ?_⟩
  rw [List.all_append, hname, hmore]
  rfl

/-- A reference ends at its first semicolon. -/
theorem name_append_inj {name other rest rest' : List Char} (hname : name.all isEntityName = true)
    (hother : other.all isEntityName = true) (h : name ++ ';' :: rest = other ++ ';' :: rest') :
    name = other ∧ rest = rest' := by
  have htake (n : List Char) (r : List Char) (hn : n.all isEntityName = true) :
      (n ++ ';' :: r).takeWhile isEntityName = n := by
    rw [List.takeWhile_append_of_pos (List.all_eq_true.1 hn)]
    simp [List.takeWhile, isEntityName]
  have hnames : name = other := by
    rw [← htake name rest hname, h, htake other rest' hother]
  subst hnames
  exact ⟨rfl, (List.cons.inj (List.append_cancel_left h)).2⟩

theorem not_mem_name {name : List Char} (hname : name.all isEntityName = true) :
    ';' ∉ name ∧ '&' ∉ name := by
  constructor
  · intro hmem
    exact absurd (List.all_eq_true.1 hname _ hmem) (by decide)
  · intro hmem
    exact absurd (List.all_eq_true.1 hname _ hmem) (by decide)

namespace CharacterData

variable {a b raw value u v : List Char}

theorem append (ha : CharacterData a u) (hb : CharacterData b v) :
    CharacterData (a ++ b) (u ++ v) := by
  induction ha with
  | nil => exact hb
  | char hc _ ih => exact .char hc ih
  | reference hname hentity _ ih =>
      rw [List.cons_append, List.append_assoc, List.cons_append]
      exact .reference hname hentity ih

/-- A text without references stands for itself. -/
theorem of_forall_ne (h : ∀ c ∈ raw, c ≠ '&') : CharacterData raw raw := by
  induction raw with
  | nil => exact .nil
  | cons c raw ih =>
      have hrest : ∀ d ∈ raw, d ≠ '&' := fun d hd => h d (List.mem_cons_of_mem c hd)
      exact .char (h c List.mem_cons_self) (ih hrest)

theorem not_dangles (h : CharacterData raw value) : ¬ Dangles raw := by
  induction h with
  | nil =>
      rintro ⟨before, name, hraw, -⟩
      exact absurd hraw (by simp)
  | char hc _ ih =>
      rintro ⟨before, name, hraw, hname⟩
      cases before with
      | nil => exact hc (List.cons.inj hraw).1
      | cons c before => exact ih ⟨before, name, (List.cons.inj hraw).2, hname⟩
  | @reference own raw _ _ hown _ _ ih =>
      rintro ⟨before, name, hraw, hname⟩
      cases before with
      | nil =>
          have htail : own ++ ';' :: raw = name := (List.cons.inj hraw).2
          exact (not_mem_name hname).1 (htail ▸ by simp)
      | cons c before =>
          have htail : own ++ ';' :: raw = before ++ '&' :: name := (List.cons.inj hraw).2
          rcases List.append_eq_append_iff.1 htail with ⟨m, hbefore, hm⟩ | ⟨m, hown', hm⟩
          · cases m with
            | nil => exact absurd (List.cons.inj hm).1 (by decide)
            | cons e m => exact ih ⟨m, name, (List.cons.inj hm).2, hname⟩
          · cases m with
            | nil => exact absurd (List.cons.inj hm).1 (by decide)
            | cons e m =>
                have he : '&' = e := (List.cons.inj hm).1
                have hmem : '&' ∈ own := by
                  rw [hown', he]
                  simp
                exact (not_mem_name hown).2 hmem

/-- The beginning of a text that can be decoded can be decoded, if it does not end within a
reference. -/
theorem decodes_or_dangles (h : CharacterData (a ++ b) value) :
    (∃ u, CharacterData a u) ∨ Dangles a := by
  generalize hs : a ++ b = s at h
  induction h generalizing a with
  | nil =>
      obtain ⟨rfl, -⟩ := List.append_eq_nil_iff.1 hs
      exact Or.inl ⟨[], .nil⟩
  | @char c raw _ hc _ ih =>
      cases a with
      | nil => exact Or.inl ⟨[], .nil⟩
      | cons d a =>
          obtain ⟨rfl, htail⟩ := List.cons.inj hs
          rcases ih htail with ⟨u, hu⟩ | hdangles
          · exact Or.inl ⟨d :: u, .char hc hu⟩
          · exact Or.inr (hdangles.cons d)
  | @reference name raw _ d hname hentity _ ih =>
      cases a with
      | nil => exact Or.inl ⟨[], .nil⟩
      | cons c a =>
          obtain ⟨rfl, htail⟩ := List.cons.inj hs
          rcases List.append_eq_append_iff.1 htail with ⟨m, hm, -⟩ | ⟨m, hm, hrest⟩
          · -- the beginning ends within the name
            refine Or.inr ⟨[], a, rfl, ?_⟩
            rw [hm, List.all_append, Bool.and_eq_true] at hname
            exact hname.1
          · cases m with
            | nil =>
                rw [List.append_nil] at hm
                exact Or.inr ⟨[], a, rfl, hm ▸ hname⟩
            | cons e m =>
                obtain ⟨rfl, hraw⟩ := List.cons.inj hrest
                rw [hm]
                rcases ih hraw.symm with ⟨u, hu⟩ | hdangles
                · exact Or.inl ⟨d :: u, .reference hname hentity hu⟩
                · have htail := (hdangles.cons ';').append_left name
                  exact Or.inr (htail.cons '&')

theorem tail_of_char {c : Char} (hc : c ≠ '&') (h : CharacterData (c :: raw) value) :
    ∃ v, CharacterData raw v := by
  generalize hs : c :: raw = s at h
  cases h with
  | nil => exact absurd hs (by simp)
  | char _ hrest =>
      obtain ⟨-, rfl⟩ := List.cons.inj hs
      exact ⟨_, hrest⟩
  | reference => exact absurd (List.cons.inj hs).1 hc

theorem tail_of_reference {name : List Char} (hname : name.all isEntityName = true)
    (h : CharacterData ('&' :: (name ++ ';' :: raw)) value) : ∃ v, CharacterData raw v := by
  generalize hs : '&' :: (name ++ ';' :: raw) = s at h
  cases h with
  | nil => exact absurd hs (by simp)
  | char hc => exact absurd (List.cons.inj hs).1.symm hc
  | reference hother _ hrest =>
      obtain ⟨-, rfl⟩ := name_append_inj hname hother (List.cons.inj hs).2
      exact ⟨_, hrest⟩

/-- What follows the beginning of a text that can be decoded can be decoded. -/
theorem decodes_append (ha : CharacterData a u) (h : CharacterData (a ++ b) value) :
    ∃ v, CharacterData b v := by
  induction ha generalizing value with
  | nil => exact ⟨value, h⟩
  | char hc _ ih =>
      obtain ⟨v, hv⟩ := tail_of_char hc h
      exact ih hv
  | reference hname _ _ ih =>
      rw [List.cons_append, List.append_assoc, List.cons_append] at h
      obtain ⟨v, hv⟩ := tail_of_reference hname h
      exact ih hv

end CharacterData

end ManagedGraph.Xml
