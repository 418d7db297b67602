/-!
# Appending what is new

Lists of declarations are merged by key: an entry is appended unless one with its key is
already there, so of several entries with one key the first stays
(`appendNew_eq_append_firsts`). Merging is associative (`appendNew_assoc`).
-/

namespace ManagedGraph

/-- The entries of a list whose key stands neither on an earlier entry nor in another list. -/
def firsts {α κ : Type} [DecidableEq κ] (key : α → κ) (own more : List α) : List α :=
  (more.zipIdx.filter fun entry => key entry.1 ∉ (own ++ more.take entry.2).map key).map Prod.fst

/-- The entries of `own`, then those of `more` whose key is not yet present, in order. -/
def appendNew {α κ : Type} [DecidableEq κ] (key : α → κ) (own more : List α) : List α :=
  more.foldl (fun acc x => if acc.any fun y => key y = key x then acc else acc ++ [x]) own

section

variable {α κ : Type} [DecidableEq κ] {key : α → κ} {own more : List α}

@[simp] theorem appendNew_nil : appendNew key own [] = own := rfl

theorem appendNew_cons {x : α} :
    appendNew key own (x :: more) =
      appendNew key (if own.any fun y => key y = key x then own else own ++ [x]) more := rfl

/-- Appending two lists one after the other is appending both at once. -/
theorem appendNew_append {more' : List α} :
    appendNew key own (more ++ more') = appendNew key (appendNew key own more) more' := by
  simp [appendNew]

/-- A key is present afterwards when it was present in either list. -/
theorem mem_map_key_appendNew {k : κ} :
    k ∈ (appendNew key own more).map key ↔ k ∈ own.map key ∨ k ∈ more.map key := by
  induction more generalizing own with
  | nil => simp
  | cons x rest ih =>
      rw [appendNew_cons, ih]
      split
      · rename_i h
        have hx : key x ∈ own.map key := by
          rcases List.any_eq_true.1 h with ⟨y, hy, hyx⟩
          exact List.mem_map.2 ⟨y, hy, of_decide_eq_true hyx⟩
        rw [List.map_cons, List.mem_cons]
        constructor
        · rintro (hk | hk)
          · exact Or.inl hk
          · exact Or.inr (Or.inr hk)
        · rintro (hk | rfl | hk)
          · exact Or.inl hk
          · exact Or.inl hx
          · exact Or.inr hk
      · simp [or_assoc]

/-- Every entry was in one of the lists. -/
theorem mem_appendNew {x : α} (h : x ∈ appendNew key own more) : x ∈ own ∨ x ∈ more := by
  induction more generalizing own with
  | nil => exact Or.inl h
  | cons y rest ih =>
      rw [appendNew_cons] at h
      rcases ih h with hmem | hmem
      · split at hmem
        · exact Or.inl hmem
        · rcases List.mem_append.1 hmem with hmem | hmem
          · exact Or.inl hmem
          · exact Or.inr (by simp_all)
      · exact Or.inr (List.mem_cons_of_mem _ hmem)

/-- Distinct keys stay distinct. -/
theorem nodup_map_key_appendNew (h : (own.map key).Nodup) :
    ((appendNew key own more).map key).Nodup := by
  induction more generalizing own with
  | nil => exact h
  | cons x rest ih =>
      rw [appendNew_cons]
      apply ih
      split
      · exact h
      · rename_i hnew
        rw [List.map_append, List.map_singleton, List.nodup_append]
        refine ⟨h, by simp, ?_⟩
        rintro k hk k' hk' rfl
        rcases List.mem_map.1 hk with ⟨y, hy, rfl⟩
        have hyx : key y = key x := by simpa using hk'
        exact hnew (List.any_eq_true.2 ⟨y, hy, decide_eq_true hyx⟩)

/-! ## What is appended -/

theorem firsts_cons {x : α} :
    firsts key own (x :: more) =
      if key x ∈ own.map key then firsts key (own ++ [x]) more
      else x :: firsts key (own ++ [x]) more := by
  unfold firsts
  rw [List.zipIdx_cons', List.filter_cons, List.filter_map]
  split <;> simp_all [Function.comp_def]

/-- A key that another list has already makes no difference there. -/
theorem firsts_append_singleton {x : α} (h : key x ∈ own.map key) :
    firsts key (own ++ [x]) more = firsts key own more := by
  unfold firsts
  congr 1
  apply List.filter_congr
  intro entry _
  have hiff (k : κ) : k ∈ ((own ++ [x]) ++ more.take entry.2).map key ↔
      k ∈ (own ++ more.take entry.2).map key := by
    simp only [List.map_append, List.mem_append, List.map_singleton, List.mem_singleton]
    constructor
    · rintro ((hk | rfl) | hk)
      · exact Or.inl hk
      · exact Or.inl h
      · exact Or.inr hk
    · rintro (hk | hk)
      · exact Or.inl (Or.inl hk)
      · exact Or.inr hk
  simp only [hiff]

/-- What is appended are the first entries with their keys. -/
theorem appendNew_eq_append_firsts : appendNew key own more = own ++ firsts key own more := by
  induction more generalizing own with
  | nil => simp [firsts]
  | cons x rest ih =>
      have hany : (own.any fun y => key y = key x) = decide (key x ∈ own.map key) := by
        rw [Bool.eq_iff_iff]
        simp
      rw [appendNew_cons, hany, firsts_cons]
      by_cases h : key x ∈ own.map key
      · simp only [h, decide_true, if_true, ih, firsts_append_singleton]
      · simp [h, ih]

/-- Where the keys of some entries are present, repetitions of them are not appended anyway. -/
theorem appendNew_firsts {rest : List α} (h : more.map key ⊆ own.map key) :
    appendNew key own (firsts key more rest) = appendNew key own rest := by
  induction rest generalizing own more with
  | nil => rfl
  | cons x rest ih =>
      have hany : (own.any fun y => key y = key x) = decide (key x ∈ own.map key) := by
        rw [Bool.eq_iff_iff]
        simp
      rw [firsts_cons, appendNew_cons, hany]
      by_cases hown : key x ∈ own.map key
      · have hkeys : (more ++ [x]).map key ⊆ own.map key := by
          rw [List.map_append, List.append_subset]
          exact ⟨h, by simpa using hown⟩
        simp only [hown, decide_true, if_true]
        split
        · exact ih hkeys
        · rw [appendNew_cons, hany]
          simpa only [hown, decide_true, if_true] using ih hkeys
      · have hkeys : (more ++ [x]).map key ⊆ (own ++ [x]).map key := by
          rw [List.map_append, List.map_append, List.append_subset]
          exact ⟨List.subset_append_of_subset_left _ h, List.subset_append_right _ _⟩
        have hmore : key x ∉ more.map key := fun hx => hown (h hx)
        rw [if_neg hmore, appendNew_cons, hany]
        simpa only [hown, decide_false, Bool.false_eq_true, if_false] using ih hkeys

/-- Appending what is new is associative. -/
theorem appendNew_assoc {rest : List α} :
    appendNew key own (appendNew key more rest) =
      appendNew key (appendNew key own more) rest := by
  have hkeys : more.map key ⊆ (appendNew key own more).map key := by
    intro k hk
    exact mem_map_key_appendNew.2 (Or.inr hk)
  have hmore : appendNew key more rest = more ++ firsts key more rest := appendNew_eq_append_firsts
  rw [hmore, appendNew_append, appendNew_firsts hkeys]

theorem mem_firsts {x : α} (h : x ∈ firsts key own more) : x ∈ more ∧ key x ∉ own.map key := by
  unfold firsts at h
  obtain ⟨⟨y, i⟩, hentry, rfl⟩ := List.mem_map.1 h
  obtain ⟨hmem, hnew⟩ := List.mem_filter.1 hentry
  refine ⟨List.fst_mem_of_mem_zipIdx hmem, ?_⟩
  intro hown
  simp only [List.map_append, List.mem_append, decide_eq_true_eq, not_or] at hnew
  exact hnew.1 hown

end

end ManagedGraph
