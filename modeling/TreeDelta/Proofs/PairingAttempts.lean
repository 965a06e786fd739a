import TreeDelta.Proofs.Pairs

namespace TreeDelta

open Slotted (slot)

variable {ι : Type}

namespace Pairing

variable [Slotted ι] {p q : Pairing ι} {a b : ι}

/-- The two pairings differ at most in blank slots. -/
structure SameView (p q : Pairing ι) : Prop where
  image : ∀ a, p.image? a = q.image? a
  origin : ∀ b, p.origin? b = q.origin? b
  pairs : p.pairs = q.pairs

theorem sameView_withCapacity (n m : Nat) : SameView (ι := ι) (withCapacity n m) empty := by
  constructor <;> simp [image?, origin?, Pairing.pairs, withCapacity, empty]

theorem add_eq_error_iff : p.add a b = .error .bijection ↔ ¬ p.bothFree a b := by
  rw [add]
  split <;> simp_all

theorem SameView.bothFree_eq (h : SameView p q) (a b : ι) :
    p.bothFree a b = q.bothFree a b := by
  simp only [bothFree, srcPaired, dstPaired, h.image, h.origin]

theorem SameView.of_add {p' q' : Pairing ι} (h : SameView p q) (hp : p.add a b = .ok p')
    (hq : q.add a b = .ok q') : SameView p' q' where
  image x := by rw [slot_image?_of_add hp, slot_image?_of_add hq, h.image]
  origin y := by rw [slot_origin?_of_add hp, slot_origin?_of_add hq, h.origin]
  pairs := by rw [pairs_of_add hp, pairs_of_add hq, h.pairs]

/-- Adds the pairs in order. The first refusal ends it, else it ends as it is told. -/
def attempt (p : Pairing ι) : List (ι × ι) → Except Fault Unit → Except Fault Unit × Pairing ι
  | [], ending => (ending, p)
  | (a, b) :: l, ending =>
      match p.add a b with
      | .ok q => q.attempt l ending
      | .error fault => (.error fault, p)

def fitting (p : Pairing ι) : List (ι × ι) → List (ι × ι)
  | [] => []
  | (a, b) :: l =>
      match p.add a b with
      | .ok q => (a, b) :: q.fitting l
      | .error _ => []

theorem attempt_append (p : Pairing ι) (l l' : List (ι × ι)) (ending : Except Fault Unit) :
    p.attempt (l ++ l') ending =
      match p.attempt l (.ok ()) with
      | (.ok _, q) => q.attempt l' ending
      | (.error fault, q) => (.error fault, q) := by
  induction l generalizing p with
  | nil => rfl
  | cons x l ih =>
      obtain ⟨a, b⟩ := x
      rw [List.cons_append, attempt, attempt]
      cases p.add a b with
      | error fault => rfl
      | ok q => exact ih q

theorem attempt_error (p : Pairing ι) (l : List (ι × ι)) (fault : Fault) :
    p.attempt l (.error fault) =
      match p.attempt l (.ok ()) with
      | (.ok _, q) => (.error fault, q)
      | (.error first, q) => (.error first, q) := by
  rw [← List.append_nil l, attempt_append, List.append_nil]
  rfl

theorem SameView.attempt (h : SameView p q) (l : List (ι × ι))
    (ending : Except Fault Unit) :
    (p.attempt l ending).1 = (q.attempt l ending).1 ∧
      SameView (p.attempt l ending).2 (q.attempt l ending).2 ∧ p.fitting l = q.fitting l := by
  induction l generalizing p q with
  | nil => exact ⟨rfl, h, rfl⟩
  | cons x l ih =>
      obtain ⟨a, b⟩ := x
      by_cases hfree : p.bothFree a b
      · obtain ⟨p', hp⟩ := add_eq_ok_iff.2 (bothFree_iff.1 hfree)
        obtain ⟨q', hq⟩ := add_eq_ok_iff.2 (bothFree_iff.1 (h.bothFree_eq a b ▸ hfree))
        obtain ⟨hreply, hview, hfit⟩ := ih (h.of_add hp hq)
        simp only [Pairing.attempt, fitting, hp, hq, hfit]
        exact ⟨hreply, hview, trivial⟩
      · have hp := add_eq_error_iff.2 hfree
        have hq := add_eq_error_iff.2 (h.bothFree_eq a b ▸ hfree)
        simp only [Pairing.attempt, fitting, hp, hq]
        exact ⟨trivial, h, trivial⟩

theorem pairs_attempt (p : Pairing ι) (l : List (ι × ι)) (ending : Except Fault Unit) :
    (p.attempt l ending).2.pairs = p.pairs ++ p.fitting l := by
  induction l generalizing p with
  | nil => exact (List.append_nil _).symm
  | cons x l ih =>
      obtain ⟨a, b⟩ := x
      rw [attempt, fitting]
      cases hadd : p.add a b with
      | error fault => exact (List.append_nil _).symm
      | ok q =>
          rw [List.append_cons, ← pairs_of_add hadd]
          exact ih q

end Pairing

namespace Pairer

mutual
/-- The pairs that two trees of node numbers ask for up to the first difference in kind or in
number of children, and how this ends if none of them is refused. -/
def route (srcKind dstKind : ι → Except Fault Kind) : Rose ι → Rose ι → List (ι × ι) × Except Fault Unit
  | .node a as, .node b bs =>
      match srcKind a, dstKind b with
      | .error fault, _ | .ok _, .error fault => ([], .error fault)
      | .ok ka, .ok kb =>
          if ka != kb then ([], .error .recursiveKinds)
          else if as.length != bs.length then ([(a, b)], .error .recursiveShapes)
          else ((a, b) :: (routes srcKind dstKind as bs).1, (routes srcKind dstKind as bs).2)
def routes (srcKind dstKind : ι → Except Fault Kind) :
    List (Rose ι) → List (Rose ι) → List (ι × ι) × Except Fault Unit
  | a :: as, b :: bs =>
      match route srcKind dstKind a b with
      | (l, .error fault) => (l, .error fault)
      | (l, .ok _) => (l ++ (routes srcKind dstKind as bs).1, (routes srcKind dstKind as bs).2)
  | _, _ => ([], .ok ())
end

mutual
theorem of_mem_route (srcKind dstKind : ι → Except Fault Kind) : ∀ s t : Rose ι,
    ∀ x ∈ (route srcKind dstKind s t).1, x.1 ∈ s.preorder ∧ x.2 ∈ t.preorder
  | .node a as, .node b bs => by
      intro x hx
      rw [Rose.preorder_node, Rose.preorder_node]
      rw [route] at hx
      cases hka : srcKind a <;> cases hkb : dstKind b <;> simp only [hka, hkb] at hx
      case ok.ok ka kb =>
        by_cases hkind : ka != kb
        · simp [hkind] at hx
        by_cases hlength : as.length != bs.length
        · simp only [if_neg hkind, if_pos hlength, List.mem_singleton] at hx
          simp [hx]
        · simp only [if_neg hkind, if_neg hlength, List.mem_cons] at hx
          rcases hx with rfl | hx
          · exact ⟨List.mem_cons_self, List.mem_cons_self⟩
          · obtain ⟨hfst, hsnd⟩ := of_mem_routes srcKind dstKind as bs x hx
            exact ⟨List.mem_cons_of_mem a hfst, List.mem_cons_of_mem b hsnd⟩
      all_goals cases hx
theorem of_mem_routes (srcKind dstKind : ι → Except Fault Kind) : ∀ ss ts : List (Rose ι),
    ∀ x ∈ (routes srcKind dstKind ss ts).1,
      x.1 ∈ ss.flatMap Rose.preorder ∧ x.2 ∈ ts.flatMap Rose.preorder
  | s :: ss, t :: ts => by
      intro x hx
      have hhead := of_mem_route srcKind dstKind s t x
      rw [routes] at hx
      rw [List.flatMap_cons, List.flatMap_cons, List.mem_append, List.mem_append]
      rcases h : route srcKind dstKind s t with ⟨l, fault | _⟩ <;> rw [h] at hx hhead
      · exact (hhead hx).imp .inl .inl
      · rcases List.mem_append.1 hx with hx | hx
        · exact (hhead hx).imp .inl .inl
        · exact (of_mem_routes srcKind dstKind ss ts x hx).imp .inr .inr
  | [], _ => by simp [routes]
  | _ :: _, [] => by simp [routes]
end

theorem run_bind {α β : Type} (m : PairerOn ι α) (k : α → PairerOn ι β) (p : Pairing ι) :
    (m >>= k).run p = match m.run p with
      | (.ok a, q) => (k a).run q
      | (.error fault, q) => (.error fault, q) := by
  change (ExceptT.bindCont k (m.run p).1).run (m.run p).2 = _
  rcases m.run p with ⟨_ | _, q⟩ <;> rfl

theorem lift_ok_bind {α β : Type} (x : α) (k : α → PairerOn ι β) :
    ((liftM (Except.ok x : Except Fault α) : PairerOn ι α) >>= k) = k x :=
  rfl

variable [Slotted ι]

def Attempts (m : PairerOn ι Unit) (l : List (ι × ι)) (ending : Except Fault Unit) : Prop :=
  ∀ p, m.run p = p.attempt l ending

theorem attempts_add (a b : ι) : Attempts (add a b) [(a, b)] (.ok ()) := by
  intro p
  rw [run_add, Pairing.attempt]
  cases p.add a b <;> rfl

theorem Attempts.then {m k : PairerOn ι Unit} {l l' : List (ι × ι)}
    {ending : Except Fault Unit} (hm : Attempts m l (.ok ())) (hk : Attempts k l' ending) :
    Attempts (do m; k) (l ++ l') ending := by
  intro p
  rw [run_bind, hm, Pairing.attempt_append]
  rcases p.attempt l (.ok ()) with ⟨_ | _, q⟩
  · rfl
  · exact hk q

theorem Attempts.stop {m : PairerOn ι Unit} {l : List (ι × ι)} {fault : Fault}
    (hm : Attempts m l (.error fault)) (k : PairerOn ι Unit) : Attempts (do m; k) l (.error fault) := by
  intro p
  rw [run_bind, hm, Pairing.attempt_error]
  rcases p.attempt l (.ok ()) with ⟨_ | _, q⟩ <;> rfl

theorem attempts_throw (fault : Fault) (k : Unit → PairerOn ι Unit) :
    Attempts (throw fault >>= k) [] (.error fault) :=
  fun _ => rfl

mutual
theorem attempts_addRose (srcKind dstKind : ι → Except Fault Kind) : ∀ s t : Rose ι,
    Attempts (addRose srcKind dstKind s t) (route srcKind dstKind s t).1 (route srcKind dstKind s t).2
  | .node a as, .node b bs => by
      rw [addRose, route]
      cases srcKind a with
      | error fault => exact fun p => rfl
      | ok ka =>
      cases dstKind b with
      | error fault => exact fun p => rfl
      | ok kb =>
      simp only [lift_ok_bind]
      by_cases hkind : ka != kb
      · simp only [if_pos hkind]
        exact attempts_throw _ _
      simp only [if_neg hkind]
      by_cases hlength : as.length != bs.length
      · simp only [if_pos hlength]
        exact (attempts_add a b).then (attempts_throw _ _)
      · simp only [if_neg hlength]
        exact (attempts_add a b).then (attempts_addRoses srcKind dstKind as bs)
theorem attempts_addRoses (srcKind dstKind : ι → Except Fault Kind) : ∀ ss ts : List (Rose ι),
    Attempts (addRoses srcKind dstKind ss ts) (routes srcKind dstKind ss ts).1 (routes srcKind dstKind ss ts).2
  | s :: ss, t :: ts => by
      have hhead := attempts_addRose srcKind dstKind s t
      rw [addRoses, routes]
      rcases h : route srcKind dstKind s t with ⟨l, fault | _⟩ <;> rw [h] at hhead
      · exact hhead.stop _
      · exact hhead.then (attempts_addRoses srcKind dstKind ss ts)
  | [], _ => by
      simp only [addRoses, routes]
      exact fun p => rfl
  | _ :: _, [] => by
      simp only [addRoses, routes]
      exact fun p => rfl
end

end Pairer

end TreeDelta
