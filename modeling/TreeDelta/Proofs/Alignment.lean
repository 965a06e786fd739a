import Mathlib.Data.List.Nodup

namespace TreeDelta

variable {α : Type}

theorem sublist_around {u : α} {l₁ l₂ m₁ m₂ : List α} (h : (l₁ ++ u :: l₂).Sublist (m₁ ++ u :: m₂))
    (h₁ : u ∉ m₁) (h₂ : u ∉ m₂) : l₁.Sublist m₁ ∧ l₂.Sublist m₂ := by
  induction m₁ generalizing l₁ with
  | nil =>
      cases l₁ with
      | nil => exact ⟨.slnil, List.cons_sublist_cons.1 h⟩
      | cons a l₁ =>
          have hu : u ∈ m₂ := by
            cases h with
            | cons _ h => exact h.subset (by simp)
            | cons_cons _ h => exact h.subset (by simp)
          exact absurd hu h₂
  | cons m m₁ ih =>
      rw [List.mem_cons, not_or] at h₁
      cases l₁ with
      | nil =>
          cases h with
          | cons _ h => exact ⟨List.nil_sublist _, (@ih [] h h₁.2).2⟩
          | cons_cons _ _ => exact absurd rfl h₁.1
      | cons a l₁ =>
          cases h with
          | cons _ h =>
              obtain ⟨hleft, hright⟩ := @ih (a :: l₁) h h₁.2
              exact ⟨hleft.cons m, hright⟩
          | cons_cons _ h => exact ⟨(ih h h₁.2).1.cons_cons m, (ih h h₁.2).2⟩

def slotBehind [BEq α] (before l : List α) : Nat :=
  match before.getLast? with
  | none => 0
  | some u => l.idxOf u + 1

/-- A new item, put right behind the last of those that belong before it, stands in order with
all that stood in order before. -/
theorem sublist_slotBehind [BEq α] [LawfulBEq α] {before after l : List α} (hl : l.Nodup)
    (h : (before ++ after).Sublist l) (w : α) :
    slotBehind before l ≤ l.length ∧
      (before ++ w :: after).Sublist
        (l.take (slotBehind before l) ++ w :: l.drop (slotBehind before l)) := by
  rcases List.eq_nil_or_concat' before with rfl | ⟨init, u, rfl⟩
  · simpa [slotBehind] using h
  · have hu : u ∈ l := h.subset (by simp)
    obtain ⟨m₁, m₂, rfl⟩ := List.append_of_mem hu
    have hnot : u ∉ m₁ ∧ u ∉ m₂ := by
      simpa [List.mem_append] using (List.nodup_cons.1 (List.nodup_middle.1 hl)).1
    have hslot : slotBehind (init ++ [u]) (m₁ ++ u :: m₂) = (m₁ ++ [u]).length := by
      simp [slotBehind, List.idxOf_append, hnot.1]
    have hsplit : m₁ ++ u :: m₂ = (m₁ ++ [u]) ++ m₂ := by simp
    obtain ⟨h₁, h₂⟩ := sublist_around (by simpa using h) hnot.1 hnot.2
    rw [hslot]
    refine ⟨by simp, ?_⟩
    rw [hsplit, List.take_left, List.drop_left]
    exact (h₁.append_right [u]).append (h₂.cons_cons w)

end TreeDelta
