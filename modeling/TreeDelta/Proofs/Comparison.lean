import Mathlib.Algebra.GroupWithZero.Nat
import TreeDelta.Proofs.Roses
import TreeDelta.Tree

namespace TreeDelta

namespace Rose

variable {α β : Type} {r : α → β → Bool} {stack : List (Rose α × Rose β)}

theorem sizeAll_eq_sum (ts : List (Rose α)) : sizeAll ts = (ts.map size).sum := by
  induction ts with
  | nil => rfl
  | cons t ts ih => rw [sizeAll, List.map_cons, List.sum_cons, ih]

def pending (stack : List (Rose α × Rose β)) : Nat := (stack.map fun z => z.1.size).sum

theorem pending_step (a : α) (b : β) {as : List (Rose α)} {bs : List (Rose β)}
    (stack : List (Rose α × Rose β)) (h : as.length = bs.length) :
    pending ((as.zip bs).reverse ++ stack) + 1 = pending ((node a as, node b bs) :: stack) := by
  have hchildren : (as.zip bs).map (fun z => z.1.size) = as.map size := by
    calc (as.zip bs).map (fun z => z.1.size)
        = ((as.zip bs).map Prod.fst).map size := by rw [List.map_map]; rfl
      _ = as.map size := by rw [List.map_fst_zip (Nat.le_of_eq h)]
  rw [pending, pending, List.map_append, List.map_reverse, hchildren, List.sum_append,
    List.sum_reverse, List.map_cons, List.sum_cons, size_node, sizeAll_eq_sum]
  omega

theorem forall_agree_step (a : α) (b : β) (as : List (Rose α)) (bs : List (Rose β)) :
    (∀ z ∈ (node a as, node b bs) :: stack, z.1.agree r z.2) ↔
      r a b ∧ as.length = bs.length ∧ ∀ z ∈ (as.zip bs).reverse ++ stack, z.1.agree r z.2 := by
  have hchildren : List.Forall₂ (fun s t => agree r s t) as bs ↔
      as.length = bs.length ∧ ∀ z ∈ (as.zip bs).reverse, z.1.agree r z.2 := by
    simp [List.forall₂_iff_zip]
  rw [List.forall_mem_cons, List.forall_mem_append, agree_node, hchildren, and_assoc, and_assoc]

/-- A comparison that may take all pending nodes answers whether all pairs on the stack agree. -/
theorem agreeOn_iff {pairs : Nat} (h : pending stack ≤ pairs) :
    agreeOn r pairs stack ↔ ∀ z ∈ stack, z.1.agree r z.2 := by
  induction pairs generalizing stack with
  | zero =>
      cases stack with
      | nil => simp [agreeOn]
      | cons z stack =>
          have hpos := z.1.size_pos
          rw [pending, List.map_cons, List.sum_cons] at h
          omega
  | succ pairs ih =>
      match stack with
      | [] => simp [agreeOn]
      | (node a as, node b bs) :: stack =>
          rw [agreeOn, Bool.and_eq_true, Bool.and_eq_true, beq_iff_eq, forall_agree_step]
          refine and_congr_right fun _ => and_congr_right fun hlength => ih ?_
          have hstep := pending_step a b stack hlength
          omega

theorem agree_on_iff [DecidableEq β] (f : α → β) {s t : Rose α} :
    s.agree (fun x y => f x == f y) t ↔ s.map f = t.map f := by
  rw [← agree_eq_iff, agree_map]

end Rose

theorem Forest.agree_eq (same : Content → Content → Bool) (f g : Forest) (a b : NodeId) :
    f.agree same g a b = (f.contentTree a).agree same (g.contentTree b) := by
  have hsize : Rose.pending [(f.subtree a, g.subtree b)] ≤ (f.subtree a).size := by
    simp [Rose.pending]
  rw [Bool.eq_iff_iff, Forest.agree, Rose.agreeOn_iff hsize, List.forall_mem_singleton,
    contentTree, contentTree, Rose.agree_map]

theorem Tree.sameAs_iff {s t : Tree} :
    s.sameAs t ↔ s.forest.contentTree s.root = t.forest.contentTree t.root := by
  rw [sameAs, Forest.agree_eq, Rose.agree_eq_iff]

end TreeDelta
