import Mathlib.Algebra.BigOperators.WithTop
import TreeDelta.Proofs.BacktraceSteps

namespace TreeDelta

namespace Trail

open Tables

variable {p : TreePair} {t : Tables ExactCost} {lo i lo' j row col row' col' : Nat}
  {found pending found' pending' : List (Nat × Nat)} {trail : Trail}

/-- What a walk from `(row, col)` gives: pairs and postponed subtrees that explain the cost of the
cell. It postpones no more nodes than it comes by, and fewer if it starts from two roots. -/
structure Walked (p : TreePair) (t : Tables ExactCost) (lo lo' row col : Nat)
    (found pending : List (Nat × Nat)) : Prop where
  covers : p.Covers lo row lo' col found pending (t.forestAt row col)
  load_le : p.load pending ≤ row - lo + (col - lo')
  load_lt : p.src.leaf row = lo + 1 → p.dst.leaf col = lo' + 1 → lo < row →
    p.load pending < row - lo + (col - lo')
  pending_le : ∀ q ∈ pending, lo < q.1 ∧ q.1 ≤ row ∧ lo' < q.2 ∧ q.2 ≤ col

theorem Walked.step (h : Walkable p t lo i lo' j) (hlo : lo ≤ row) (hrow : row ≤ i)
    (hlo' : lo' ≤ col) (hcol : col ≤ j)
    (hstep : Step p t lo lo' row col row' col' found pending)
    (hrest : Walked p t lo lo' row' col' found' pending') :
    Walked p t lo lo' row col (found' ++ found) (pending' ++ pending) := by
  obtain ⟨_, hrow', _, hcol', hless, hload⟩ := hstep.shrinks hlo hlo'
  have hrest_le := hrest.load_le
  have hsum : p.load (pending' ++ pending) = p.load pending' + p.load pending := by
    simp [TreePair.load]
  constructor
  case covers => exact hstep.covers h hrow hcol hrest.covers
  case load_le => omega
  case load_lt =>
    intro hleaf hleaf' _
    rw [hstep.pending_eq_nil hleaf hleaf', List.append_nil]
    omega
  case pending_le =>
    intro q hq
    rcases List.mem_append.1 hq with hq | hq
    · have := hrest.pending_le q hq
      omega
    · exact hstep.pending_le q hq

theorem Walkable.walked_corner (h : Walkable p t lo i lo' j) : Walked p t lo lo' lo lo' [] [] := by
  have hopt := h.forests lo lo' le_rfl h.lo_lt.le le_rfl h.lo_lt'.le
  refine ⟨?_, Nat.zero_le _, fun _ _ hlt => absurd hlt (Nat.lt_irrefl lo), by simp⟩
  rw [hopt.unique (.empty p lo lo')]
  rintro l rfl
  exact .empty p lo lo'

theorem Walkable.walk_spec (h : Walkable p t lo i lo' j) (fuel : Nat) (trail : Trail)
    (hlo : lo ≤ row) (hrow : row ≤ i) (hlo' : lo' ≤ col) (hcol : col ≤ j)
    (hfuel : row - lo + (col - lo') ≤ fuel) :
    ∃ found pending, walk p t i j fuel row col trail = .ok (trail.extend p found pending) ∧
      Checked.walk p t i j fuel row col trail = some (trail.extend p found pending) ∧
      Walked p t lo lo' row col found pending := by
  induction fuel generalizing row col trail with
  | zero =>
      obtain rfl : row = lo := by omega
      obtain rfl : col = lo' := by omega
      exact ⟨[], [], walk_done h 0 trail le_rfl le_rfl, Checked.walk_done h 0 trail le_rfl le_rfl,
        h.walked_corner⟩
  | succ fuel ih =>
      by_cases hmore : lo < row ∨ lo' < col
      · obtain ⟨row', col', found, pending, hstep, hwalk⟩ :=
          h.exists_step hlo hrow hlo' hcol hmore
        obtain ⟨hlo₁, hrow₁, hlo₁', hcol₁, hless, _⟩ := hstep.shrinks hlo hlo'
        obtain ⟨found', pending', hrun, hcheck, hwalked⟩ := ih (trail.extend p found pending)
          hlo₁ (hrow₁.trans hrow) hlo₁' (hcol₁.trans hcol) (by omega)
        rw [extend_extend] at hrun hcheck
        exact ⟨_, _, (hwalk fuel trail).1.trans hrun, (hwalk fuel trail).2.trans hcheck,
          hwalked.step h hlo hrow hlo' hcol hstep⟩
      · obtain rfl : row = lo := by omega
        obtain rfl : col = lo' := by omega
        exact ⟨[], [], walk_done h _ trail le_rfl le_rfl, Checked.walk_done h _ trail le_rfl le_rfl,
          h.walked_corner⟩

theorem load_pos {q : Nat × Nat} (hp : p.Nested) (hq : 0 < q.1) (hqn : q.1 ≤ p.src.size) :
    0 < p.weight q := by
  have := hp.src.leaf_le q.1 hq hqn
  rw [TreePair.weight]
  omega

theorem walkable_fillForest (hl : Checked.Listed p) (ht : Complete p t) (hi : 0 < i)
    (hin : i ≤ p.src.size) (hj : 0 < j) (hjn : j ≤ p.dst.size) :
    Walkable p (t.fillForest p i j) (p.src.leaf i - 1) i (p.dst.leaf j - 1) j := by
  have hprep := ht.prepared hl.nested hi hin hj hjn
  have hfilled := filled_fillForest hprep ht.shaped
  exact ⟨hprep.toBlock, hl, ⟨hfilled.shaped, fun x y hx hxn hy hyn =>
    hfilled.kept x y hxn hyn (ht.tree x y hx hxn hy hyn)⟩, hfilled.forest⟩

theorem unwind_spec {c : ExactCost} (fuel : Nat) (hl : Checked.Listed p) (ht : Complete p t)
    (hpending : ∀ q ∈ pending, 0 < q.1 ∧ q.1 ≤ p.src.size ∧ 0 < q.2 ∧ q.2 ≤ p.dst.size)
    (hfuel : p.load pending ≤ fuel)
    (hcovers : p.Covers 0 p.src.size 0 p.dst.size found pending c) :
    ∃ pairs, p.Attains 0 p.src.size 0 p.dst.size pairs c ∧
      unwind p fuel t ⟨found.map p.label, pending⟩ = .ok (pairs.map p.label).reverse ∧
      Checked.unwind p fuel t ⟨found.map p.label, pending⟩ =
        some (pairs.map p.label).reverse := by
  induction fuel generalizing t found pending with
  | zero =>
      cases pending with
      | nil =>
          refine ⟨found, ?_, rfl, rfl⟩
          have hall := hcovers [] rfl
          rwa [List.append_nil] at hall
      | cons q pending =>
          obtain ⟨hq, hqn, _⟩ := hpending q (by simp)
          have := load_pos hl.nested hq hqn
          simp only [TreePair.load, List.map_cons, List.sum_cons] at hfuel
          omega
  | succ fuel ih =>
      cases pending with
      | nil =>
          refine ⟨found, ?_, rfl, rfl⟩
          have hall := hcovers [] rfl
          rwa [List.append_nil] at hall
      | cons q pending =>
          obtain ⟨i, j⟩ := q
          rw [List.forall_mem_cons] at hpending
          obtain ⟨⟨hi, hin, hj, hjn⟩, hrest⟩ := hpending
          have hwalkable := walkable_fillForest hl ht hi hin hj hjn
          obtain ⟨found', pending', hrun, hcheck, hwalked⟩ := hwalkable.walk_spec (i + j)
            ⟨found.map p.label, pending⟩ hwalkable.lo_lt.le le_rfl hwalkable.lo_lt'.le le_rfl
            (by omega)
          have hlt := hwalked.load_lt hwalkable.leaf hwalkable.leaf' hwalkable.lo_lt
          have hopt := hwalkable.forests i j hwalkable.lo_lt.le le_rfl hwalkable.lo_lt'.le le_rfl
          have hpending : ∀ q ∈ pending' ++ pending,
              0 < q.1 ∧ q.1 ≤ p.src.size ∧ 0 < q.2 ∧ q.2 ≤ p.dst.size := by
            intro q hq
            rcases List.mem_append.1 hq with hq | hq
            · have := hwalked.pending_le q hq
              omega
            · exact hrest q hq
          have hload : p.load (pending' ++ pending) ≤ fuel := by
            simp only [TreePair.load, TreePair.weight, List.map_cons, List.sum_cons,
              List.map_append, List.sum_append] at hfuel hlt ⊢
            omega
          obtain ⟨pairs, hpairs, hunwind, hunwind'⟩ := ih hwalkable.complete hpending hload
            (hcovers.refine hopt hwalked.covers)
          refine ⟨pairs, hpairs, ?_, ?_⟩
          · rw [unwind]
            change (walk p (t.fillForest p i j) i j (i + j) i j _ >>= _) = _
            rw [hrun]
            rw [← hunwind, List.map_append]
            rfl
          · rw [Checked.unwind]
            change (Checked.fillForest p i j t >>= _) = _
            rw [(Checked.fillForest_eq hl ht.shaped hi hin hj hjn).1]
            change (Checked.walk p (t.fillForest p i j) i j (i + j) i j _ >>= _) = _
            rw [hcheck]
            rw [← hunwind', List.map_append]
            rfl

end Trail

namespace TreePair

variable {p : TreePair} {pairs : List (Nat × Nat)} {c : ExactCost}

theorem matched_spec (hl : Checked.Listed p) (hs : 0 < p.src.size) (hd : 0 < p.dst.size) :
    ∃ pairs, p.Attains 0 p.src.size 0 p.dst.size pairs ((Tables.ofPair p).distance p) ∧
      p.matched ExactCost = .ok (pairs.map p.label).reverse ∧
      Checked.matched ExactCost p = some (pairs.map p.label).reverse := by
  obtain ⟨hcomplete, hforests⟩ := Tables.complete_ofPair hl.nested hs hd
  rw [Tables.ForestsRight, hl.nested.src.leaf_size, hl.nested.dst.leaf_size] at hforests
  have hwalkable : Trail.Walkable p (Tables.ofPair p) 0 p.src.size 0 p.dst.size :=
    ⟨⟨hl.nested, le_rfl, le_rfl, hs, hd, hl.nested.src.leaf_size, hl.nested.dst.leaf_size⟩, hl,
      hcomplete, hforests⟩
  obtain ⟨found, pending, hrun, hcheck, hwalked⟩ := hwalkable.walk_spec
    (p.src.size + p.dst.size) {} (Nat.zero_le _) le_rfl (Nat.zero_le _) le_rfl (by omega)
  have hcost := (hforests p.src.size p.dst.size (Nat.zero_le _) le_rfl (Nat.zero_le _) le_rfl).unique
    (Tables.optimal_distance hl.nested hs hd)
  have hcovers := hwalked.covers
  rw [hcost] at hcovers
  have hload := hwalked.load_le
  obtain ⟨pairs, hpairs, hunwind, hunwind'⟩ := Trail.unwind_spec
    (p.src.size + p.dst.size) hl hcomplete
    (fun q hq => ⟨(hwalked.pending_le q hq).1, (hwalked.pending_le q hq).2⟩) (by omega) hcovers
  have hstart : ({} : Trail).extend p found pending = ⟨found.map p.label, pending⟩ := by
    simp [Trail.extend]
  refine ⟨pairs, hpairs, ?_, ?_⟩
  · rw [matched, hrun, hstart]
    exact hunwind
  · rw [Checked.matched, Checked.ofPair_eq hl]
    change (Checked.walk p (Tables.ofPair p) p.src.size p.dst.size _ _ _ _ >>= _) = _
    rw [hcheck, hstart]
    exact hunwind'

theorem Attains.kind_eq {lo hi lo' hi' : Nat} (h : p.Attains lo hi lo' hi' pairs c) (hc : c ≠ ⊤)
    {q : Nat × Nat} (hq : q ∈ pairs) : (p.src.content q.1).kind = (p.dst.content q.2).kind := by
  apply Trail.kind_eq_of_price
  intro htop
  apply hc
  have hsum : ∑ q ∈ pairs.toFinset, (p.price q + ((-2 : ℚ) : ExactCost)) = ⊤ :=
    WithTop.sum_eq_top.2 ⟨q, List.mem_toFinset.2 hq, by rw [htop, WithTop.top_add]⟩
  rw [← h.cost, TreePair.cost, hsum, WithTop.add_top]

theorem Numbers.listed {src dst : Tree} {a b : NodeId} (h : p.Numbers src dst a b) :
    Checked.Listed p where
  nested := h.nested
  leaves := ⟨h.src.leaves, h.dst.leaves⟩
  contents := by
    rw [h.src.size_eq, h.dst.size_eq, h.src.contents, h.dst.contents]
    simp

end TreePair

/-- The pairs of a cheapest edit, in exact numbers: they are found without leaving a table, running
out of steps or meeting nodes of different kinds, they make an edit mapping between the two
subtrees that joins nodes of one kind only, and its cost is the edit distance. -/
theorem cheapestPairs_editMapping [TokenHash] {src dst : Tree} {a b : NodeId} (hs : src.Surveyed)
    (hd : dst.Surveyed) (ha : src.Reaches a) (hb : dst.Reaches b) :
    ∃ pairs d, cheapestPairs ExactCost src dst a b = .ok pairs ∧
      Checked.cheapestPairs ExactCost src dst a b = some pairs ∧
      editDistance ExactCost src dst a b = .ok d ∧ pairs.Nodup ∧
      EditMapping src dst a b pairs.toFinset ∧ (∀ q ∈ pairs, src.kind q.1 = dst.kind q.2) ∧
      editCost src dst a b pairs.toFinset = d := by
  obtain ⟨p, hp, h⟩ := TreePair.gives_ofSubtrees hs hd ha hb
  obtain ⟨pairs, hpairs, hrun, hcheck⟩ :=
    TreePair.matched_spec h.listed h.src.size_pos h.dst.size_pos
  have hr := hpairs.aligns.inRange
  have hset : (pairs.map p.label).reverse.toFinset = pairs.toFinset.image p.label := by
    ext x
    simp
  have hmap := (h.aligns_iff hr).1 hpairs.aligns
  rw [← hset] at hmap
  refine ⟨_, (Tables.ofPair p).distance p, ?_, ?_, ?_, ?_, hmap, ?_, ?_⟩
  · rw [cheapestPairs, hp]
    exact hrun
  · rw [Checked.cheapestPairs, hp]
    exact hcheck
  · rw [editDistance, hp]
    rfl
  · rw [List.nodup_reverse]
    refine hpairs.nodup.map_on fun q hq r hr' he => ?_
    have hq := List.mem_toFinset.2 hq
    have hr' := List.mem_toFinset.2 hr'
    exact hpairs.aligns.eq_of_row hq hr' (h.src.id_inj (hr q hq).1.1 (hr q hq).1.2 (hr r hr').1.1
      (hr r hr').1.2 (congrArg Prod.fst he))
  · intro x hx
    obtain ⟨hxa, hxb⟩ := hmap.within x (List.mem_toFinset.2 hx)
    rw [Tree.kind_eq_ok (hs.sound.has_of_reaches (ha.trans hxa)),
      Tree.kind_eq_ok (hd.sound.has_of_reaches (hb.trans hxb))]
    obtain ⟨q, hq, rfl⟩ := List.mem_map.1 (List.mem_reverse.1 hx)
    have hkind := hpairs.kind_eq (Tables.optimal_distance h.nested h.src.size_pos
      h.dst.size_pos).ne_top hq
    have hq := hr q (List.mem_toFinset.2 hq)
    rw [h.src.content_eq hq.1.1 hq.1.2, h.dst.content_eq hq.2.1 hq.2.2] at hkind
    exact congrArg Except.ok hkind
  · rw [hset, h.editCost_eq hpairs.aligns, hpairs.cost]

attribute [local instance] TokenHash.constant

/-- Two small trees whose roots are of different kinds. -/
theorem cheapestPairs_editMapping_twigs :
    (twig 0 1).measured.Surveyed ∧ (twig 2 1).measured.Surveyed ∧
      ∃ pairs d, cheapestPairs ExactCost (twig 0 1).measured (twig 2 1).measured 1 1 = .ok pairs ∧
        Checked.cheapestPairs ExactCost (twig 0 1).measured (twig 2 1).measured 1 1 = some pairs ∧
        editDistance ExactCost (twig 0 1).measured (twig 2 1).measured 1 1 = .ok d ∧
        pairs.Nodup ∧
        EditMapping (twig 0 1).measured (twig 2 1).measured 1 1 pairs.toFinset ∧
        (∀ q ∈ pairs, (twig 0 1).measured.kind q.1 = (twig 2 1).measured.kind q.2) ∧
        editCost (twig 0 1).measured (twig 2 1).measured 1 1 pairs.toFinset = d :=
  ⟨(sound_twig 0 1).surveyed, (sound_twig 2 1).surveyed,
    cheapestPairs_editMapping (sound_twig 0 1).surveyed (sound_twig 2 1).surveyed .refl .refl⟩

end TreeDelta
