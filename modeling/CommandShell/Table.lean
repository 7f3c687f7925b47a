import CommandShell.Text

/-!
# Tables keyed by text

Finite maps from names, kept in the order of their keys, so that a listing is the table itself
and two tables with the same bindings are equal.
-/

namespace CommandShell

/-- A finite map from texts, in key order. -/
structure Table (α : Type) where
  /-- The bindings in key order. -/
  toList : List (Text × α)

namespace Table

variable {α : Type}

/-- The table without bindings. -/
def empty : Table α := ⟨[]⟩

instance : Inhabited (Table α) := ⟨empty⟩

/-- The value bound to a key in a list of bindings. -/
def find? (k : Text) : List (Text × α) → Option α
  | [] => none
  | (k', v) :: r => if k = k' then some v else find? k r

/-- The value bound to a key. -/
def get? (t : Table α) (k : Text) : Option α := find? k t.toList

/-- Whether a key is bound. -/
def has (t : Table α) (k : Text) : Bool := (t.get? k).isSome

/-- Binds a key in a list of bindings in key order. -/
def insertList (k : Text) (v : α) : List (Text × α) → List (Text × α)
  | [] => [(k, v)]
  | (k', v') :: r =>
    if k = k' then (k, v) :: r
    else if Text.lt k k' then (k, v) :: (k', v') :: r
    else (k', v') :: insertList k v r

/-- Binds a key, in place of what it was bound to. -/
def insert (t : Table α) (k : Text) (v : α) : Table α := ⟨insertList k v t.toList⟩

/-- Removes a key. -/
def erase (t : Table α) (k : Text) : Table α := ⟨t.toList.filter fun b => b.1 ≠ k⟩

/-- Keeps the bindings whose value satisfies `p`. -/
def filter (p : α → Bool) (t : Table α) : Table α := ⟨t.toList.filter fun b => p b.2⟩

/-- The table of a list of bindings, later ones winning. -/
def ofList (l : List (Text × α)) : Table α := l.foldl (fun t b => t.insert b.1 b.2) empty

/-! ## Looking up after a change -/

theorem mem_of_find? {k : Text} {v : α} {l : List (Text × α)} (h : find? k l = some v) :
    (k, v) ∈ l := by
  induction l with
  | nil => cases h
  | cons b r ih =>
      unfold find? at h
      by_cases hk : k = b.1
      · rw [if_pos hk] at h
        cases h
        exact hk ▸ List.mem_cons_self
      · rw [if_neg hk] at h
        exact List.mem_cons_of_mem _ (ih h)

/-- What is found is one of the bindings. -/
theorem mem_of_get? {t : Table α} {k : Text} {v : α} (h : t.get? k = some v) :
    (k, v) ∈ t.toList :=
  mem_of_find? h

theorem find?_insertList_of_ne {k k' : Text} (h : k' ≠ k) (v : α) (l : List (Text × α)) :
    find? k' (insertList k v l) = find? k' l := by
  induction l with
  | nil => exact if_neg h
  | cons b r ih =>
      obtain ⟨kb, vb⟩ := b
      unfold insertList
      by_cases hk : k = kb
      · subst hk
        rw [if_pos rfl]
        show (if k' = k then _ else _) = if k' = k then _ else _
        rw [if_neg h, if_neg h]
      · rw [if_neg hk]
        by_cases hlt : Text.lt k kb = true
        · rw [if_pos hlt]
          exact if_neg h
        · rw [if_neg hlt]
          show (if k' = kb then _ else _) = if k' = kb then _ else _
          rw [ih]

/-- A binding changes nothing for the other keys. -/
theorem get?_insert_of_ne {k k' : Text} (h : k' ≠ k) (t : Table α) (v : α) :
    (t.insert k v).get? k' = t.get? k' :=
  find?_insertList_of_ne h v t.toList

theorem find?_insertList_self (k : Text) (v : α) (l : List (Text × α)) :
    find? k (insertList k v l) = some v := by
  induction l with
  | nil => exact if_pos rfl
  | cons b r ih =>
      obtain ⟨kb, vb⟩ := b
      unfold insertList
      by_cases hk : k = kb
      · rw [if_pos hk]
        exact if_pos rfl
      · rw [if_neg hk]
        by_cases hlt : Text.lt k kb = true
        · rw [if_pos hlt]
          exact if_pos rfl
        · rw [if_neg hlt]
          show (if k = kb then _ else _) = _
          rw [if_neg hk, ih]

/-- A key has the value that it was bound to. -/
theorem get?_insert_self (t : Table α) (k : Text) (v : α) : (t.insert k v).get? k = some v :=
  find?_insertList_self k v t.toList

/-- Removing a key changes nothing for the others. -/
theorem get?_erase_of_ne {k k' : Text} (h : k' ≠ k) (t : Table α) :
    (t.erase k).get? k' = t.get? k' := by
  show find? k' (t.toList.filter _) = find? k' t.toList
  induction t.toList with
  | nil => rfl
  | cons b r ih =>
      obtain ⟨kb, vb⟩ := b
      by_cases hk : kb = k
      · rw [List.filter_cons_of_neg (by simpa using hk), ih]
        exact (if_neg fun hkb => h (hkb.trans hk)).symm
      · rw [List.filter_cons_of_pos (by simpa using hk)]
        show (if k' = kb then _ else _) = if k' = kb then _ else _
        rw [ih]

/-- A key that was removed has no value. -/
theorem get?_erase_self (t : Table α) (k : Text) : (t.erase k).get? k = none := by
  show find? k (t.toList.filter _) = none
  induction t.toList with
  | nil => rfl
  | cons b r ih =>
      obtain ⟨kb, vb⟩ := b
      by_cases hk : kb = k
      · rw [List.filter_cons_of_neg (by simpa using hk), ih]
      · rw [List.filter_cons_of_pos (by simpa using hk)]
        show (if k = kb then _ else _) = none
        rw [if_neg (Ne.symm hk), ih]

theorem mem_insertList {k : Text} {v : α} {l : List (Text × α)} {b : Text × α}
    (h : b ∈ insertList k v l) : b = (k, v) ∨ b ∈ l := by
  induction l with
  | nil => exact .inl (List.mem_singleton.mp h)
  | cons a r ih =>
      obtain ⟨ka, va⟩ := a
      unfold insertList at h
      by_cases hk : k = ka
      · rw [if_pos hk] at h
        exact (List.mem_cons.mp h).imp_right (List.mem_cons_of_mem _)
      · rw [if_neg hk] at h
        by_cases hlt : Text.lt k ka = true
        · rw [if_pos hlt] at h
          exact List.mem_cons.mp h
        · rw [if_neg hlt] at h
          rcases List.mem_cons.mp h with rfl | hr
          · exact .inr List.mem_cons_self
          · exact (ih hr).imp_right (List.mem_cons_of_mem _)

/-- A binding adds no other one. -/
theorem mem_insert {t : Table α} {k : Text} {v : α} {b : Text × α}
    (h : b ∈ (t.insert k v).toList) : b = (k, v) ∨ b ∈ t.toList :=
  mem_insertList h

/-! ## Looking up in a list of bindings -/

section

variable {β : Type} {l : List (Text × α)} {k : Text}

theorem find?_eq_none (h : k ∉ l.map Prod.fst) : find? k l = none := by
  induction l with
  | nil => rfl
  | cons b l ih =>
      obtain ⟨hb, hl⟩ := not_or.mp (mt List.mem_cons.mpr h)
      unfold find?
      rw [if_neg hb, ih hl]

theorem find?_append_singleton (l : List (Text × α)) (k k' : Text) (v : α) :
    find? k (l ++ [(k', v)]) = (find? k l).or (if k = k' then some v else none) := by
  induction l with
  | nil => simp [find?]
  | cons b l ih =>
      rw [List.cons_append, find?, find?]
      split
      · rfl
      · exact ih

theorem find?_map (f : α → β) (l : List (Text × α)) (k : Text) :
    find? k (l.map fun b => (b.1, f b.2)) = (find? k l).map f := by
  induction l with
  | nil => rfl
  | cons b l ih =>
      rw [List.map_cons, find?, find?]
      split
      · rfl
      · exact ih

/-- With distinct keys what is found in a part of the list is found in the list. -/
theorem find?_filter (h : (l.map Prod.fst).Nodup) (p : α → Bool) (k : Text) :
    find? k (l.filter fun b => p b.2) = (find? k l).filter p := by
  induction l with
  | nil => rfl
  | cons b l ih =>
      obtain ⟨hb, hl⟩ := List.nodup_cons.mp h
      have hrest := ih hl
      by_cases hk : k = b.1
      · subst hk
        have hnone := find?_eq_none hb
        rw [find?, if_pos rfl, Option.filter_some]
        by_cases hp : p b.2 = true
        · simp [hp, find?]
        · simp [hp, hrest, hnone]
      · rw [find?, if_neg hk, ← hrest]
        by_cases hp : p b.2 = true
        · simp [hp, find?, hk]
        · simp [hp]

end

end Table

end CommandShell
