import TreeDelta.Proofs.ContainerCandidates
import TreeDelta.Proofs.RenamedForests

namespace TreeDelta

variable {s t : Tree} {a b : NodeId}

abbrev Answers (x : Except Fault Bool) (prop : Prop) : Prop := Gives x fun yes => (yes ↔ prop)

namespace Answers

variable {x : Except Fault Bool} {prop : Prop}

theorem eq_true (h : Answers x prop) (hprop : prop) : x = .ok true := by
  obtain ⟨yes, hx, hiff⟩ := h
  rw [hx, hiff.2 hprop]

theorem eq_false (h : Answers x prop) (hprop : ¬ prop) : x = .ok false := by
  obtain ⟨yes, hx, hiff⟩ := h
  rw [hx, Bool.eq_false_iff.2 (mt hiff.1 hprop)]

end Answers

namespace Tree

/-- The subtrees at two nodes have the same kinds and labels in the same places. -/
def EqualContent (s : Tree) (a : NodeId) (t : Tree) (b : NodeId) : Prop :=
  s.forest.contentTree a = t.forest.contentTree b

/-- The subtrees at two nodes have the same kinds in the same places. -/
def EqualKinds (s : Tree) (a : NodeId) (t : Tree) (b : NodeId) : Prop :=
  (s.forest.contentTree a).map Content.kind = (t.forest.contentTree b).map Content.kind

theorem answers_agree_content (ha : s.forest.has a) (hb : t.forest.has b) :
    Answers (s.agree (· == ·) a t b) (s.EqualContent a t b) :=
  (Gives.agree ha hb _).mono fun _ hyes => hyes.trans Rose.agree_eq_iff

theorem answers_agree_kinds (ha : s.forest.has a) (hb : t.forest.has b) :
    Answers (s.agree (fun x y => x.kind == y.kind) a t b) (s.EqualKinds a t b) :=
  (Gives.agree ha hb _).mono fun _ hyes => hyes.trans (Rose.agree_on_iff Content.kind)

theorem Surveyed.measure_unreached [TokenHash] (h : t.Surveyed) (ha : t.forest.has a)
    (hout : ¬ t.Reaches a) :
    t.measure a = .ok {} := by
  apply (h.measure_of_not_reaches hout).resolve_right
  have hlt : a < (t.forest.measures t.root).size := by
    rw [Forest.measures, Measure.size_walk, Array.size_replicate]
    exact Nat.lt_succ_of_le ((t.forest.has_iff_le a).1 ha).2
  rw [measure, h.measures]
  simp [hlt]

section Digests

variable [TokenHash] (hs : s.Surveyed) (ht : t.Surveyed) (ha : s.forest.has a)
  (hb : t.forest.has b) (hreach : s.Reaches a ↔ t.Reaches b)
include hs ht ha hb hreach

/-- A digest of what is compared is a filter only. The measures speak of both nodes if the root
reaches both; if it reaches none of them, their measures are alike. -/
theorem answers_agreeAfter {part : Measure → UInt64} {same : Content → Content → Bool}
    {prop : Prop} (h : Answers (s.agree same a t b) prop)
    (hpart : prop → part (s.forest.measureOf s.root a) = part (t.forest.measureOf t.root b)) :
    Answers (s.agreeAfter part same a t b) prop := by
  by_cases hsa : s.Reaches a
  · exact .agreeAfter (hs.measure_eq_ok hsa) (ht.measure_eq_ok (hreach.1 hsa)) h hpart
  · have htb := mt hreach.2 hsa
    exact .agreeAfter (hs.measure_unreached ha hsa) (ht.measure_unreached hb htb) h fun _ => rfl

theorem answers_isomorphic : Answers (s.isomorphic a t b) (s.EqualContent a t b) :=
  answers_agreeAfter hs ht ha hb hreach (answers_agree_content ha hb) (congrArg Rose.hash)

theorem answers_sameShape : Answers (s.sameShape a t b) (s.EqualKinds a t b) :=
  answers_agreeAfter hs ht ha hb hreach (answers_agree_kinds ha hb)
    (congrArg (Rose.digest Kind.tokenHash))

end Digests

theorem sameAs_equivalence : Equivalence fun s t : Tree => s.sameAs t := by
  simp only [sameAs_iff]
  exact ⟨fun _ => rfl, fun h => h.symm, fun h h' => h.trans h'⟩

/-- The same tree under other numbers. Spans, annotations and nodes that the root does not reach
may be different ones. -/
def Renumbered (t u : Tree) : Prop := ∃ r, t.forest.Renamed r u.forest ∧ r t.root u.root

theorem sameAs_eq_of_renumbered {u v : Tree} (hs : s.Renumbered u) (ht : t.Renumbered v) :
    s.sameAs t = u.sameAs v := by
  obtain ⟨_, hsu, hsroot⟩ := hs
  obtain ⟨_, htv, htroot⟩ := ht
  rw [Bool.eq_iff_iff, sameAs_iff, sameAs_iff, hsu.contentTree_eq hsroot,
    htv.contentTree_eq htroot]

/-- The comparison off the stack is equality of ordered trees, of contents or of kinds. Where the
measures are those of the present trees, isomorphism and sameness of shape are these equalities as
well, whatever the digests of the tokens. The comparison of whole trees is the equality at their
roots, an equivalence that does not depend on numbers, spans and annotations. -/
theorem comparison_exact [TokenHash] (ha : s.forest.has a) (hb : t.forest.has b) :
    Answers (s.agree (· == ·) a t b) (s.EqualContent a t b) ∧
    Answers (s.agree (fun x y => x.kind == y.kind) a t b) (s.EqualKinds a t b) ∧
    (s.Surveyed → t.Surveyed → (s.Reaches a ↔ t.Reaches b) →
      Answers (s.isomorphic a t b) (s.EqualContent a t b) ∧
      Answers (s.sameShape a t b) (s.EqualKinds a t b)) ∧
    (∀ u v : Tree, u.sameAs v ↔ u.EqualContent u.root v v.root) ∧
    (Equivalence fun u v : Tree => u.sameAs v) ∧
    ∀ u u' v v' : Tree, u.Renumbered u' → v.Renumbered v' → u.sameAs v = u'.sameAs v' := by
  refine ⟨answers_agree_content ha hb, answers_agree_kinds ha hb, ?_, fun _ _ => sameAs_iff,
    sameAs_equivalence, fun _ _ _ _ => sameAs_eq_of_renumbered⟩
  intro hs ht hreach
  exact ⟨answers_isomorphic hs ht ha hb hreach, answers_sameShape hs ht ha hb hreach⟩

def forkWithStray (label : String) : Tree :=
  (((twig 0 1).addChild 1 { kind := .named 1, label := label }).2.addChild 9 { kind := .top }).2

theorem surveyed_forkWithStray [TokenHash] (label : String) :
    (forkWithStray label).measured.Surveyed :=
  (((sound_twig 0 1).addChild 1 _).addChild 9 _).surveyed

attribute [local instance] TokenHash.constant

/-- Two forks with different labels have the same shape and are not isomorphic. Their strays are. -/
theorem comparison_exact_forks :
    (forkWithStray "x").measured.isomorphic 1 (forkWithStray "y").measured 1 = .ok false ∧
      (forkWithStray "x").measured.sameShape 1 (forkWithStray "y").measured 1 = .ok true ∧
      (forkWithStray "x").measured.isomorphic 4 (forkWithStray "y").measured 4 = .ok true := by
  have hx := surveyed_forkWithStray "x"
  have hy := surveyed_forkWithStray "y"
  have hroots := (comparison_exact (a := 1) (b := 1) (hx.has .refl) (hy.has .refl)).2.2.1 hx hy
    (iff_of_true .refl .refl)
  have hstray (label : String) : ¬ (forkWithStray label).measured.Reaches 4 := by
    intro hreach
    have hroot : 4 = 1 := (surveyed_forkWithStray label).sound.eq_root hreach rfl
    cases hroot
  have hstrays := (comparison_exact (a := 4) (b := 4) rfl rfl).2.2.1 hx hy
    (iff_of_false (hstray "x") (hstray "y"))
  refine ⟨hroots.1.eq_false ?_, hroots.2.eq_true rfl, hstrays.1.eq_true rfl⟩
  intro hequal
  rw [EqualContent, ← Rose.agree_eq_iff] at hequal
  exact absurd hequal (by decide)

end Tree

end TreeDelta
