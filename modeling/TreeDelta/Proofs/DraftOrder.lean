import TreeDelta.Proofs.Alignment
import TreeDelta.Proofs.DraftSteps

namespace TreeDelta

def lined (inOrder : NodeId → Bool) (origin : NodeId → Option NodeId) (cs : List NodeId) :
    List NodeId :=
  (cs.filter inOrder).filterMap origin

section Lined

variable {O O' : NodeId → Bool} {o o' : NodeId → Option NodeId} {pre post cs : List NodeId}
  {c u w x : NodeId}

theorem mem_lined : u ∈ lined O o cs ↔ ∃ c ∈ cs, O c ∧ o c = some u := by
  simp [lined, and_assoc]

theorem lined_congr (hO : ∀ c ∈ cs, O' c = O c) (ho : ∀ c ∈ cs, O c → o' c = o c) :
    lined O' o' cs = lined O o cs := by
  rw [lined, lined, List.filter_congr hO]
  refine List.filterMap_congr fun c hc => ?_
  exact ho c (List.mem_filter.1 hc).1 (List.mem_filter.1 hc).2

theorem lined_append (cs cs' : List NodeId) :
    lined O o (cs ++ cs') = lined O o cs ++ lined O o cs' := by
  simp [lined]

theorem lined_cons_of_false (hx : O x = false) : lined O o (x :: cs) = lined O o cs := by
  simp [lined, hx]

theorem lined_cons_of_true (hx : O x) (hw : o x = some w) :
    lined O o (x :: cs) = w :: lined O o cs := by
  simp [lined, hx, hw]

theorem getLast?_lined (h : ∀ c, O c → ∃ u, o c = some u) (cs : List NodeId) :
    (lined O o cs).getLast? = (cs.filter O).getLast?.bind o := by
  have hall : ∀ c ∈ cs.filter O, ∃ u, o c = some u := fun c hc => h c (List.mem_filter.1 hc).2
  rw [lined]
  rcases List.eq_nil_or_concat' (cs.filter O) with hl | ⟨init, c, hl⟩
  · rw [hl]; rfl
  · rw [hl] at hall ⊢
    obtain ⟨u, hu⟩ := hall c (by simp)
    simp [hu]

theorem lined_insert (hO : ∀ c, O' c = (x == c || O c))
    (ho : ∀ c, o' c = if x = c then some w else o c) (hpre : x ∉ pre) (hpost : x ∉ post) :
    lined O' o' (pre ++ x :: post) = lined O o pre ++ w :: lined O o post := by
  have hsame : ∀ {l : List NodeId}, x ∉ l → lined O' o' l = lined O o l := by
    intro l hl
    have hne : ∀ c ∈ l, x ≠ c := fun c hc he => hl (he ▸ hc)
    refine lined_congr (fun c hc => ?_) fun c hc _ => ?_
    · simp [hO, hne c hc]
    · rw [ho, if_neg (hne c hc)]
  rw [lined_append, lined_cons_of_true (by simp [hO]) (by rw [ho, if_pos rfl]), hsame hpre,
    hsame hpost]

end Lined

theorem Forest.Sound.exists_split {f : Forest} {x y : NodeId} (h : f.Sound)
    (hy : f.parent? x = some y) :
    ∃ pre post, f.childrenOf y = pre ++ x :: post ∧ x ∉ pre ∧ x ∉ post := by
  obtain ⟨pre, post, hsplit⟩ := List.append_of_mem ((h.mem_children y x).2 hy)
  have hnd := h.nodup_children y
  rw [hsplit] at hnd
  exact ⟨pre, post, hsplit,
    by simpa [List.mem_append] using (List.nodup_cons.1 (List.nodup_middle.1 hnd)).1⟩

namespace Draft

variable {ε : Type} {t : Task ε} {d : Draft ε} {w x y z : NodeId}

theorem targetParent_eq (hx : t.dst.forest.has x) : d.targetParent t x = .ok (t.seat d.pairing x) := by
  rw [targetParent, Tree.parent_eq_ok hx]; rfl

theorem siblings_of_parent (hd : t.dst.Sound) (hy : t.dst.forest.parent? x = some y) :
    siblings t x = .ok (t.dst.forest.childrenOf y) := by
  rw [siblings, Tree.parent_eq_ok (Forest.has_of_parent? hy), hy]
  exact Tree.children_eq_ok (hd.forest.has_parent hy)

def predecessor (t : Task ε) (d : Draft ε) (x : NodeId) : Except Fault (Option NodeId) := do
  let sibs ← siblings t x
  if sibs.find? d.inOrder.contains == some x then return none
  return ((sibs.takeWhile (· != x)).filter d.inOrder.contains).getLast?.bind d.pairing.origin?

def slotAfter (d : Draft ε) : Option NodeId → Except Fault Nat
  | none => .ok 0
  | some u => do
      let _ ← d.work.node u
      return d.work.position u + 1

theorem slotFor_eq (d : Draft ε) (x : NodeId) :
    d.slotFor t x = d.predecessor t x >>= d.slotAfter := by
  unfold slotFor predecessor
  cases siblings t x with
  | error => rfl
  | ok sibs =>
      change (if _ then _ else _) = (if _ then _ else _) >>= _
      split
      · rfl
      · change _ = d.slotAfter _
        unfold slotAfter
        rfl

theorem predecessor_of_siblings {sibs : List NodeId} (hsibs : siblings t x = .ok sibs)
    (hno : d.inOrder.contains x = false) :
    d.predecessor t x = .ok (((sibs.takeWhile (· != x)).filter d.inOrder.contains).getLast?.bind
      d.pairing.origin?) := by
  have hfirst : ¬ (sibs.find? d.inOrder.contains == some x) := by
    intro hf
    have := List.find?_some (beq_iff_eq.1 hf)
    rw [hno] at this
    cases this
  rw [predecessor, hsibs]
  change (if _ then _ else _) = _
  rw [if_neg hfirst]
  rfl

theorem predecessor_root (hx : t.dst.forest.has x) (hroot : t.dst.forest.parent? x = none)
    (hno : d.inOrder.contains x = false) : d.predecessor t x = .ok none := by
  have hsibs : siblings t x = .ok [x] := by
    rw [siblings, Tree.parent_eq_ok hx, hroot]; rfl
  rw [predecessor_of_siblings hsibs hno]
  simp

theorem predecessor_child (hd : t.dst.Sound)
    (hpaired : ∀ c, d.inOrder.contains c → ∃ u, d.pairing.origin? c = some u)
    {pre post : List NodeId} (hy : t.dst.forest.parent? x = some y)
    (hsplit : t.dst.forest.childrenOf y = pre ++ x :: post) (hpre : x ∉ pre)
    (hno : d.inOrder.contains x = false) :
    d.predecessor t x =
      .ok (lined d.inOrder.contains d.pairing.origin? pre).getLast? := by
  have htake : (pre ++ x :: post).takeWhile (· != x) = pre := by
    rw [List.takeWhile_append_of_pos]
    · simp
    · intro c hc
      simpa using fun he : c = x => hpre (he ▸ hc)
  rw [predecessor_of_siblings (siblings_of_parent hd hy) hno, hsplit, htake,
    getLast?_lined hpaired]

theorem slotFor_root (hx : t.dst.forest.has x) (hroot : t.dst.forest.parent? x = none)
    (hno : d.inOrder.contains x = false) : d.slotFor t x = .ok 0 := by
  rw [slotFor_eq, predecessor_root hx hroot hno]
  rfl

theorem position_of_parent {f : Forest} {u z : NodeId} (h : f.parent? u = some z) :
    f.position u = (f.childrenOf z).idxOf u := by
  rw [Forest.position, h]

theorem parent_of_getLast?_lined (hlinks : d.work.Sound) {pre post : List NodeId} {u : NodeId}
    (hline : (lined d.inOrder.contains d.pairing.origin? (pre ++ post)).Sublist
      (d.work.childrenOf z))
    (hu : (lined d.inOrder.contains d.pairing.origin? pre).getLast? = some u) :
    d.work.parent? u = some z := by
  refine (hlinks.mem_children z u).1 (hline.subset ?_)
  rw [lined_append]
  exact List.mem_append_left _ (List.mem_of_getLast? hu)

theorem slotFor_child (hd : t.dst.Sound) (hlinks : d.work.Sound)
    (hpaired : ∀ c, d.inOrder.contains c → ∃ u, d.pairing.origin? c = some u)
    {pre post : List NodeId} (hy : t.dst.forest.parent? x = some y)
    (hsplit : t.dst.forest.childrenOf y = pre ++ x :: post) (hpre : x ∉ pre)
    (hno : d.inOrder.contains x = false)
    (hline : (lined d.inOrder.contains d.pairing.origin? (t.dst.forest.childrenOf y)).Sublist
      (d.work.childrenOf z)) :
    d.slotFor t x = .ok (slotBehind (lined d.inOrder.contains d.pairing.origin? pre)
      (d.work.childrenOf z)) := by
  rw [slotFor_eq, predecessor_child hd hpaired hy hsplit hpre hno, slotBehind]
  change d.slotAfter _ = _
  cases hlast : (lined d.inOrder.contains d.pairing.origin? pre).getLast? with
  | none => rfl
  | some u =>
      have hparent := parent_of_getLast?_lined hlinks (hsplit ▸ hline) hlast
      rw [slotAfter, Forest.node_eq_ok (Forest.has_of_parent? hparent), position_of_parent hparent]
      rfl

theorem predecessor_spec (hd : t.dst.Sound) (hlinks : d.work.Sound)
    (hpaired : ∀ c, d.inOrder.contains c → ∃ u, d.pairing.origin? c = some u)
    (hy : t.dst.forest.parent? x = some y) (hno : d.inOrder.contains x = false)
    (hline : (lined d.inOrder.contains d.pairing.origin? (t.dst.forest.childrenOf y)).Sublist
      (d.work.childrenOf z)) :
    ∃ u?, d.predecessor t x = .ok u? ∧ ∀ u ∈ u?, d.work.parent? u = some z := by
  obtain ⟨pre, post, hsplit, hpre, -⟩ := hd.forest.exists_split hy
  refine ⟨_, predecessor_child hd hpaired hy hsplit hpre hno, fun u hu => ?_⟩
  exact parent_of_getLast?_lined hlinks (hsplit ▸ hline) hu

/-- What a slot is good for: put there, the partner `w` of `x` stands in order with the partners
of the other children of `y`. -/
theorem slotFor_spec (hd : t.dst.Sound) (hlinks : d.work.Sound)
    (hpaired : ∀ c, d.inOrder.contains c → ∃ u, d.pairing.origin? c = some u)
    (hy : t.dst.forest.parent? x = some y) (hno : d.inOrder.contains x = false)
    (hline : (lined d.inOrder.contains d.pairing.origin? (t.dst.forest.childrenOf y)).Sublist
      (d.work.childrenOf z)) (w : NodeId) :
    ∃ k, d.slotFor t x = .ok k ∧ k ≤ (d.work.childrenOf z).length ∧
      ∀ (O' : NodeId → Bool) (o' : NodeId → Option NodeId),
        (∀ c, O' c = (x == c || d.inOrder.contains c)) →
        (∀ c, o' c = if x = c then some w else d.pairing.origin? c) →
        (lined O' o' (t.dst.forest.childrenOf y)).Sublist
          ((d.work.childrenOf z).take k ++ w :: (d.work.childrenOf z).drop k) := by
  obtain ⟨pre, post, hsplit, hpre, hpost⟩ := hd.forest.exists_split hy
  have hline' := hline
  rw [hsplit, lined_append, lined_cons_of_false hno] at hline'
  obtain ⟨hle, hsub⟩ := sublist_slotBehind (hlinks.nodup_children z) hline' w
  refine ⟨_, slotFor_child hd hlinks hpaired hy hsplit hpre hno hline, hle, ?_⟩
  intro O' o' hO ho
  rw [hsplit, lined_insert hO ho hpre hpost]
  exact hsub

end Draft

end TreeDelta
