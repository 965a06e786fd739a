import Mathlib.Data.List.Forall2
import Mathlib.Data.List.Sort
import TreeDelta.CommonSubsequence

namespace TreeDelta

variable {α β : Type} (rel : α → β → Bool) (a : α) (as : List α) (b : β) (bs : List β)

def chainLength : Nat := ((lengthRows rel bs as).headD []).headD 0

theorem map_tail_lengthRows :
    (lengthRows rel (b :: bs) as).map List.tail = lengthRows rel bs as := by
  induction as with
  | nil => rfl
  | cons a as ih =>
      rw [lengthRows, lengthRows, List.map_cons, ← ih]
      cases lengthRows rel (b :: bs) as <;> rfl

theorem chainLength_nil_left : chainLength rel [] bs = 0 := rfl

theorem chainLength_nil_right : chainLength rel as [] = 0 := by
  cases as <;> rfl

theorem chainLength_cons_cons :
    chainLength rel (a :: as) (b :: bs) =
      if rel a b then chainLength rel as bs + 1
      else max (chainLength rel as (b :: bs)) (chainLength rel (a :: as) bs) := by
  simp only [chainLength, lengthRows, ← map_tail_lengthRows rel as b bs]
  cases lengthRows rel (b :: bs) as <;> rfl

theorem readChain_cons_cons (steps : Nat) :
    readChain rel (steps + 1) (lengthRows rel (b :: bs) (a :: as)) (a :: as) (b :: bs) =
      if rel a b then (a, b) :: readChain rel steps (lengthRows rel bs as) as bs
      else if chainLength rel (a :: as) bs ≤ chainLength rel as (b :: bs) then
        readChain rel steps (lengthRows rel (b :: bs) as) as (b :: bs)
      else readChain rel steps (lengthRows rel bs (a :: as)) (a :: as) bs := by
  rw [chainLength, chainLength, ← map_tail_lengthRows rel as b bs,
    ← map_tail_lengthRows rel (a :: as) b bs]
  rfl

theorem readChain_nil_right (steps : Nat) (rows : List (List Nat)) :
    readChain rel steps rows as [] = [] := by
  cases steps <;> cases rows <;> cases as <;> rfl

theorem readChain_nil_left (steps : Nat) (rows : List (List Nat)) :
    readChain rel steps rows [] bs = [] := by
  cases steps <;> cases rows <;> rfl

theorem readChain_eq {steps : Nat} (h : as.length + bs.length ≤ steps) :
    readChain rel steps (lengthRows rel bs as) as bs = commonSubsequence rel as bs := by
  suffices hsteps : ∀ n, as.length + bs.length ≤ n →
      readChain rel steps (lengthRows rel bs as) as bs =
        readChain rel n (lengthRows rel bs as) as bs from hsteps _ (Nat.le_refl _)
  intro n hn
  induction steps generalizing n as bs with
  | zero =>
      obtain rfl : as = [] := List.eq_nil_of_length_eq_zero (by omega)
      rw [readChain_nil_left, readChain_nil_left]
  | succ steps ih =>
      match as, bs with
      | [], bs => rw [readChain_nil_left, readChain_nil_left]
      | a :: as, [] => rw [readChain_nil_right, readChain_nil_right]
      | a :: as, b :: bs =>
          rw [List.length_cons, List.length_cons] at h hn
          obtain ⟨n, rfl⟩ : ∃ k, n = k + 1 := ⟨n - 1, by omega⟩
          rw [readChain_cons_cons, readChain_cons_cons, ih as bs (by omega) n (by omega),
            ih as (b :: bs) (by rw [List.length_cons]; omega) n (by rw [List.length_cons]; omega),
            ih (a :: as) bs (by rw [List.length_cons]; omega) n (by rw [List.length_cons]; omega)]

@[simp] theorem commonSubsequence_nil_left : commonSubsequence rel [] bs = [] :=
  readChain_nil_left rel bs _ _

@[simp] theorem commonSubsequence_nil_right : commonSubsequence rel as [] = [] :=
  readChain_nil_right rel as _ _

theorem commonSubsequence_cons_cons :
    commonSubsequence rel (a :: as) (b :: bs) =
      if rel a b then (a, b) :: commonSubsequence rel as bs
      else if chainLength rel (a :: as) bs ≤ chainLength rel as (b :: bs) then
        commonSubsequence rel as (b :: bs)
      else commonSubsequence rel (a :: as) bs := by
  have hsteps : (a :: as).length + (b :: bs).length = as.length + bs.length + 1 + 1 := by
    rw [List.length_cons, List.length_cons]
    omega
  rw [commonSubsequence, hsteps, readChain_cons_cons, readChain_eq rel as bs (by omega),
    readChain_eq rel as (b :: bs) (by rw [List.length_cons]; omega),
    readChain_eq rel (a :: as) bs (by rw [List.length_cons]; omega)]

section Longest

variable {rel as bs}

theorem commonSubsequence_follows (rel : α → β → Bool) (as : List α) (bs : List β) :
    ((commonSubsequence rel as bs).map Prod.fst).Sublist as ∧
      ((commonSubsequence rel as bs).map Prod.snd).Sublist bs ∧
      ∀ q ∈ commonSubsequence rel as bs, rel q.1 q.2 := by
  induction as generalizing bs with
  | nil => simp
  | cons a as ihas =>
      induction bs with
      | nil => simp
      | cons b bs ihbs =>
          rw [commonSubsequence_cons_cons]
          split
          · next hab =>
            obtain ⟨hleft, hright, hrel⟩ := ihas bs
            exact ⟨hleft.cons_cons a, hright.cons_cons b, List.forall_mem_cons.2 ⟨hab, hrel⟩⟩
          · split
            · obtain ⟨hleft, hright, hrel⟩ := ihas (b :: bs)
              exact ⟨hleft.cons a, hright, hrel⟩
            · obtain ⟨hleft, hright, hrel⟩ := ihbs
              exact ⟨hleft, hright.cons b, hrel⟩

theorem length_commonSubsequence (rel : α → β → Bool) (as : List α) (bs : List β) :
    (commonSubsequence rel as bs).length = chainLength rel as bs := by
  induction as generalizing bs with
  | nil => rw [commonSubsequence_nil_left, chainLength_nil_left, List.length_nil]
  | cons a as ihas =>
      induction bs with
      | nil => rw [commonSubsequence_nil_right, chainLength_nil_right, List.length_nil]
      | cons b bs ihbs =>
          rw [commonSubsequence_cons_cons, chainLength_cons_cons]
          split
          · rw [List.length_cons, ihas]
          · split
            · next hle => rw [ihas, Nat.max_eq_left hle]
            · next hlt => rw [ihbs, Nat.max_eq_right (Nat.le_of_not_le hlt)]

/-- A related pair of first items may always be taken: a chain that joins one of them to a later
item can join the two instead and goes on as before. -/
theorem length_le_chainLength {q : List (α × β)} (hleft : (q.map Prod.fst).Sublist as)
    (hright : (q.map Prod.snd).Sublist bs) (hrel : ∀ x ∈ q, rel x.1 x.2) :
    q.length ≤ chainLength rel as bs := by
  induction as generalizing bs q with
  | nil =>
      have hnil : q = [] := by simpa using hleft
      simp [hnil]
  | cons a as ihas =>
      induction bs with
      | nil =>
          have hnil : q = [] := by simpa using hright
          simp [hnil]
      | cons b bs ihbs =>
          cases q with
          | nil => exact Nat.zero_le _
          | cons x q =>
              rw [chainLength_cons_cons]
              split
              · exact Nat.succ_le_succ
                  (ihas hleft.tail hright.tail fun y hy => hrel y (List.mem_cons_of_mem _ hy))
              · next hab =>
                cases hleft with
                | cons _ hleft =>
                    exact Nat.le_trans (ihas hleft hright hrel) (Nat.le_max_left _ _)
                | cons_cons _ _ =>
                    cases hright with
                    | cons _ hright => exact Nat.le_trans (ihbs hright) (Nat.le_max_right _ _)
                    | cons_cons _ _ => exact absurd (hrel x (by simp)) hab

theorem length_le_commonSubsequence {q : List (α × β)} (hleft : (q.map Prod.fst).Sublist as)
    (hright : (q.map Prod.snd).Sublist bs) (hrel : ∀ x ∈ q, rel x.1 x.2) :
    q.length ≤ (commonSubsequence rel as bs).length := by
  rw [length_commonSubsequence]
  exact length_le_chainLength hleft hright hrel

theorem commonSubsequence_of_forall₂ (h : List.Forall₂ (fun a b => rel a b) as bs) :
    commonSubsequence rel as bs = as.zip bs := by
  induction h with
  | nil => rfl
  | cons hab _ ih => rw [commonSubsequence_cons_cons, if_pos hab, ih, List.zip_cons_cons]

end Longest

theorem sublist_range_iff {l : List Nat} {n : Nat} :
    l.Sublist (List.range n) ↔ l.Pairwise (· < ·) ∧ ∀ i ∈ l, i < n := by
  constructor
  · intro h
    exact ⟨List.pairwise_lt_range.sublist h, fun i hi => List.mem_range.1 (h.subset hi)⟩
  · rintro ⟨hup, hlt⟩
    have hsub : l ⊆ List.range n := fun i hi => List.mem_range.2 (hlt i hi)
    exact List.sublist_of_subperm_of_pairwise (List.subperm_of_subset hup.nodup hsub) hup
      List.pairwise_lt_range

/-- Pairs of indices below `m` and `n` that go up on both sides, each of them related. -/
structure Ascent (m n : Nat) (rel : Nat → Nat → Bool) (c : List (Nat × Nat)) : Prop where
  left : (c.map Prod.fst).Pairwise (· < ·)
  right : (c.map Prod.snd).Pairwise (· < ·)
  within : ∀ q ∈ c, q.1 < m ∧ q.2 < n
  related : ∀ q ∈ c, rel q.1 q.2

theorem ascent_iff {m n : Nat} {rel : Nat → Nat → Bool} {c : List (Nat × Nat)} :
    Ascent m n rel c ↔ (c.map Prod.fst).Sublist (List.range m) ∧
      (c.map Prod.snd).Sublist (List.range n) ∧ ∀ q ∈ c, rel q.1 q.2 := by
  rw [sublist_range_iff, sublist_range_iff, List.forall_mem_map, List.forall_mem_map]
  constructor
  · intro h
    exact ⟨⟨h.left, fun q hq => (h.within q hq).1⟩, ⟨h.right, fun q hq => (h.within q hq).2⟩,
      h.related⟩
  · rintro ⟨⟨hleft, hm⟩, ⟨hright, hn⟩, hrel⟩
    exact ⟨hleft, hright, fun q hq => ⟨hm q hq, hn q hq⟩, hrel⟩

/-- For all lengths and every relation of indices, a common subsequence goes up on both sides,
joins only related indices, and no other such list is longer. -/
theorem longest_ascent (m n : Nat) (rel : Nat → Nat → Bool) :
    Ascent m n rel (commonSubsequence rel (List.range m) (List.range n)) ∧
      ∀ c, Ascent m n rel c →
        c.length ≤ (commonSubsequence rel (List.range m) (List.range n)).length := by
  constructor
  · exact ascent_iff.2 (commonSubsequence_follows rel (List.range m) (List.range n))
  · intro c hc
    obtain ⟨hleft, hright, hrel⟩ := ascent_iff.1 hc
    exact length_le_commonSubsequence hleft hright hrel

/-- The relation need not be an equivalence: 0 is related to both, 1 to the first one only. -/
example : commonSubsequence (fun i j => i == 0 || j == 0) (List.range 2) (List.range 2) =
    [(0, 0)] := by decide

end TreeDelta
