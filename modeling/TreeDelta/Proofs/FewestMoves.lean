import Mathlib.Order.Bounds.Basic
import TreeDelta.Proofs.Visits

namespace TreeDelta

/-- The nodes that are moved, in order. -/
def movedNodes (l : List Action) : List NodeId := (l.filterMap Action.moved?).map Prod.fst

theorem mem_movedNodes {l : List Action} {a : NodeId} :
    a ∈ movedNodes l ↔ ∃ b, (a, b) ∈ l.filterMap Action.moved? := by
  simp [movedNodes]

theorem movedNodes_append (l l' : List Action) :
    movedNodes (l ++ l') = movedNodes l ++ movedNodes l' := by
  rw [movedNodes, List.filterMap_append, List.map_append]
  rfl

def Action.movesOneOf (nodes : List NodeId) : Action → Bool
  | .move node .. => nodes.contains node
  | _ => false

theorem countP_movesOneOf (nodes : List NodeId) (l : List Action) :
    l.countP (Action.movesOneOf nodes) = ((movedNodes l).filter nodes.contains).length := by
  rw [← List.countP_eq_length_filter, movedNodes, List.countP_map, List.countP_filterMap]
  apply List.countP_congr
  intro a _
  cases a <;> simp [Action.movesOneOf, Action.moved?]

/-- The children of `w` in the source tree whose partners are children of `x`. -/
def sharedChildren (src dst : Tree) (p : Pairing) (w x : NodeId) : List NodeId :=
  (src.forest.childrenOf w).filter fun c => (p.image? c).bind dst.forest.parent? == some x

/-- Shared children, in the order of the source tree, whose partners stand in the same order. -/
structure MayStay (src dst : Tree) (p : Pairing) (w x : NodeId) (l : List NodeId) : Prop where
  left : l.Sublist (sharedChildren src dst p w x)
  right : (l.filterMap p.image?).Sublist (dst.forest.childrenOf x)

structure Longest (src dst : Tree) (p : Pairing) (w x : NodeId) (l : List NodeId) : Prop where
  mayStay : MayStay src dst p w x l
  length_le : ∀ l', MayStay src dst p w x l' → l'.length ≤ l.length

variable {src dst : Tree} {p : Pairing} {a b w x : NodeId}

theorem mem_sharedChildren (hsrc : src.Sound) :
    a ∈ sharedChildren src dst p w x ↔ src.forest.parent? a = some w ∧
      ∃ b, p.image? a = some b ∧ dst.forest.parent? b = some x := by
  rw [sharedChildren, List.mem_filter, hsrc.forest.mem_children, beq_iff_eq,
    Option.bind_eq_some_iff]

theorem nodup_sharedChildren (hsrc : src.Sound) : (sharedChildren src dst p w x).Nodup :=
  (hsrc.forest.nodup_children w).filter _

theorem Forest.Sound.erase_sublist_place {f : Forest} (h : f.Sound) (hw : f.has w) (c : NodeId)
    (k : Nat) (v : NodeId) :
    ((f.childrenOf v).erase c).Sublist ((f.place w c k).childrenOf v) := by
  rw [h.childrenOf_place hw]
  split
  · next hv =>
    subst hv
    have hsplit := List.take_append_drop k ((f.childrenOf w).erase c)
    conv_lhs => rw [← hsplit]
    exact (List.Sublist.refl _).append (List.sublist_cons_self c _)
  · exact .refl _

namespace Draft

variable {placed : List NodeId} {d d' : Draft Action}

def InLine (src : Tree) (d : Draft Action) : Prop :=
  ∀ v, ((src.forest.childrenOf v).filter (· ∉ movedNodes d.journal.toList)).Sublist
    (d.work.childrenOf v)

theorem InLine.start (hsrc : src.Sound) : InLine src (start src p) := by
  intro v
  refine List.filter_sublist.trans ?_
  change (src.forest.childrenOf v).Sublist ((src.forest.underTop src.root).2.childrenOf v)
  rw [childrenOf_underTop hsrc]
  split
  · next hv =>
    rw [← hv, Forest.childrenOf_eq_nil src.forest.not_has_succ_size]
    exact List.nil_sublist _
  · exact .refl _

theorem stable_inLine (hs : Setting (scripting src dst) src p) :
    Stable (scripting src dst) src p (InLine src) where
  quiet d o h := h
  step placed placed' d a d' hb hstep hb' h := by
    intro v
    have hjournal : movedNodes d'.journal.toList = movedNodes d.journal.toList ++ movedNodes [a] := by
      rw [hstep.journal_eq, Array.toList_push, movedNodes_append]
    have hfewer : ((src.forest.childrenOf v).filter (· ∉ movedNodes d'.journal.toList)).Sublist
        ((src.forest.childrenOf v).filter (· ∉ movedNodes d.journal.toList)) := by
      apply List.monotone_filter_right
      intro c hc
      rw [hjournal] at hc
      simp_all
    cases hstep with
    | @insert x k q hx hreach hseat hk hadd =>
        have hz := (d.work.has_alloc_iff (dst.forest.infoOf x) _).2 (.inr (hb.has_seat hseat))
        have hnew : d.work.size + 1 ∉ d.work.childrenOf v :=
          fun hmem => d.work.not_has_succ_size (hb.links.has_child hmem)
        have hplace := (hb.links.alloc (dst.forest.infoOf x)).erase_sublist_place hz
          (d.work.size + 1) k v
        rw [Forest.childrenOf_alloc, List.erase_of_not_mem hnew] at hplace
        exact (hfewer.trans (h v)).trans hplace
    | @update w x hx hw hne =>
        have hsame : (withContent d.work w (dst.forest.contentOf x)).childrenOf v =
            d.work.childrenOf v := Forest.childrenOf_modify_info d.work w (fun n => { n with
              kind := (dst.forest.contentOf x).kind, label := (dst.forest.contentOf x).label }) v
        exact (hfewer.trans (h v)).trans (hsame ▸ .refl _)
    | @move w x k hx hw hseat hk =>
        have hplace := hb.links.erase_sublist_place (hb.has_seat hseat) w k v
        have hgone : (src.forest.childrenOf v).filter (· ∉ movedNodes d.journal.toList ++ [w]) =
            ((src.forest.childrenOf v).filter (· ∉ movedNodes d.journal.toList)).erase w := by
          rw [((hs.src_sound.forest.nodup_children v).filter _).erase_eq_filter, List.filter_filter]
          apply List.filter_congr
          intro c _
          rw [Bool.eq_iff_iff]
          simp [and_comm]
        rw [hjournal]
        exact (hgone ▸ (h v).erase w).trans hplace

theorem InLine.visit (hs : Setting (scripting src dst) src p) (h : Visited src dst p placed d)
    (hx : Next (scripting src dst) placed x) (hvisit : d.visit (scripting src dst) x = .ok d')
    (hline : InLine src d) : InLine src d' := by
  obtain ⟨_, hvisit', _, _, hline'⟩ := visit_spec hs (stable_inLine hs) h.base h.order hx hline
  cases hvisit.symm.trans hvisit'
  exact hline'

theorem children_to_order_eq (hs : Setting (scripting src dst) src p)
    (hb : Base (scripting src dst) src p placed d.work d.pairing) (hline : InLine src d)
    (hw : p.image? w = some x) (hfresh : ∀ b ∈ dst.forest.childrenOf x, b ∉ placed)
    (hstill : ∀ a ∈ sharedChildren src dst p w x, a ∉ movedNodes d.journal.toList) :
    ((d.work.childrenOf w).filter fun c =>
      (d.pairing.image? c).bind dst.forest.parent? == some x) = sharedChildren src dst p w x := by
  have hsub : (sharedChildren src dst p w x).Sublist (d.work.childrenOf w) := by
    refine List.Sublist.trans ?_ (hline w)
    rw [← List.filter_eq_self.2 fun a ha => decide_eq_true (hstill a ha)]
    exact List.filter_sublist.filter _
  rw [← filter_contains_of_sublist hsub (hb.links.nodup_children w)]
  apply List.filter_congr
  intro c hc
  rw [Bool.eq_iff_iff, beq_iff_eq, List.contains_iff_mem, mem_sharedChildren hs.src_sound,
    Option.bind_eq_some_iff]
  constructor
  · rintro ⟨b, hcb, hparent⟩
    obtain ⟨hold, hhome⟩ := hb.unmoved hs (hfresh b ((hs.dst_sound.forest.mem_children x b).2 hparent))
      hcb ((hb.links.mem_children w c).1 hc) (hb.old w x hw)
    exact ⟨hhome, b, hold, hparent⟩
  · rintro ⟨_, b, hcb, hparent⟩
    exact ⟨b, hb.old c b hcb, hparent⟩

theorem longest_commonSubsequence (hs : Setting (scripting src dst) src p)
    (hb : Base (scripting src dst) src p placed d.work d.pairing) {right : List NodeId}
    (hchild : ∀ a ∈ sharedChildren src dst p w x, d.work.parent? a = some w)
    (hright : right = (dst.forest.childrenOf x).filter fun c =>
      (d.pairing.origin? c).bind d.work.parent? == some w) :
    Longest src dst p w x
      ((commonSubsequence d.pairing.joins (sharedChildren src dst p w x) right).map Prod.fst) := by
  obtain ⟨hfst, hsnd, hrel⟩ :=
    commonSubsequence_follows d.pairing.joins (sharedChildren src dst p w x) right
  set common := commonSubsequence d.pairing.joins (sharedChildren src dst p w x) right
  have hpaired : ∀ a ∈ sharedChildren src dst p w x, ∃ b, p.image? a = some b ∧
      d.pairing.image? a = some b := by
    intro a ha
    obtain ⟨_, b, hab, _⟩ := (mem_sharedChildren hs.src_sound).1 ha
    exact ⟨b, hab, hb.old a b hab⟩
  refine ⟨⟨hfst, ?_⟩, fun l hl => ?_⟩
  · have himages : (common.map Prod.fst).filterMap p.image? = common.map Prod.snd := by
      rw [List.filterMap_map, ← List.filterMap_eq_map]
      refine List.filterMap_congr fun q hq => ?_
      obtain ⟨b, hab, hab'⟩ := hpaired q.1 (hfst.subset (List.mem_map_of_mem hq))
      have hq' : d.pairing.image? q.1 = some q.2 := by simpa [Pairing.joins] using hrel q hq
      rw [hab', ← hab] at hq'
      exact hq'
    rw [himages]
    exact hsnd.trans (hright ▸ List.filter_sublist)
  · -- another run that may stay is a chain together with its partners
    set chain := l.map fun a => (a, (p.image? a).getD a) with hchain
    have hleft : chain.map Prod.fst = l := by simp [hchain, Function.comp_def]
    have himages : chain.map Prod.snd = l.filterMap p.image? := by
      rw [hchain, List.map_map, ← List.filterMap_eq_map]
      refine List.filterMap_congr fun a ha => ?_
      obtain ⟨b, hab, _⟩ := hpaired a (hl.left.subset ha)
      simp [hab]
    rw [List.length_map, ← hleft, List.length_map]
    apply length_le_commonSubsequence
    · rw [hleft]
      exact hl.left
    · have hall : (l.filterMap p.image?).filter (fun c =>
          (d.pairing.origin? c).bind d.work.parent? == some w) = l.filterMap p.image? := by
        refine List.filter_eq_self.2 fun b hb' => ?_
        obtain ⟨a, ha, hab⟩ := List.mem_filterMap.1 hb'
        have hba := (hb.pair a b).1 (hb.old a b hab)
        simp [hba, hchild a (hl.left.subset ha)]
      rw [himages, hright, ← hall]
      exact hl.right.filter _
    · intro q hq
      obtain ⟨a, ha, rfl⟩ := List.mem_map.1 hq
      obtain ⟨b, hab, hab'⟩ := hpaired a (hl.left.subset ha)
      simp [Pairing.joins, hab, hab']

/-- Of the children that stand as in the source tree, those outside a longest run that may stay
are moved. -/
theorem orderChildren_moves (hs : Setting (scripting src dst) src p)
    (hb : Base (scripting src dst) src p placed d.work d.pairing) (hw : p.image? w = some x)
    (hleft : ((d.work.childrenOf w).filter fun c =>
      (d.pairing.image? c).bind dst.forest.parent? == some x) = sharedChildren src dst p w x)
    (h : d.orderChildren (scripting src dst) w x = .ok d') :
    ∃ kept strays, Longest src dst p w x kept ∧
      d'.journal.toList = d.journal.toList ++ strays ∧
      ∀ a ∈ sharedChildren src dst p w x, a ∈ movedNodes strays ↔ a ∉ kept := by
  obtain ⟨hhas, hreach⟩ := hb.live w x (hb.old w x hw)
  rw [orderChildren_eq hs hb hhas (hs.dst_sound.has_of_reaches hreach) hleft.symm rfl] at h
  obtain ⟨strays, hjournal, _, _, hmoves, _⟩ := moveStray_writes h
  have hchild : ∀ a ∈ sharedChildren src dst p w x, d.work.parent? a = some w := by
    intro a ha
    rw [← hleft] at ha
    exact (hb.links.mem_children w a).1 (List.mem_filter.1 ha).1
  refine ⟨_, strays, longest_commonSubsequence hs hb hchild rfl, hjournal, fun a ha => ?_⟩
  set common := commonSubsequence d.pairing.joins (sharedChildren src dst p w x)
    ((dst.forest.childrenOf x).filter fun c =>
      (d.pairing.origin? c).bind d.work.parent? == some w) with hcommon
  have hrel : ∀ q ∈ common, d.pairing.image? q.1 = some q.2 := by
    intro q hq
    simpa [Pairing.joins] using (commonSubsequence_follows _ _ _).2.2 q hq
  obtain ⟨_, b, hab, _⟩ := (mem_sharedChildren hs.src_sound).1 ha
  have hab' := hb.old a b hab
  have hkept : a ∈ common.map Prod.fst ↔ b ∈ common.map Prod.snd := by
    simp only [List.mem_map]
    constructor
    · rintro ⟨q, hq, rfl⟩
      exact ⟨q, hq, Option.some.inj ((hrel q hq).symm.trans hab')⟩
    · rintro ⟨q, hq, rfl⟩
      have hqa := (hb.pair q.1 q.2).1 (hrel q hq)
      exact ⟨q, hq, Option.some.inj (hqa.symm.trans ((hb.pair a q.2).1 hab'))⟩
  rw [movedNodes, hmoves, hkept, List.map_filterMap, List.mem_filterMap]
  constructor
  · rintro ⟨c, hc, hca⟩
    obtain rfl : c = a := by
      obtain ⟨q, hq, rfl⟩ := Option.map_eq_some_iff.1 hca
      obtain ⟨_, _, rfl⟩ := Option.map_eq_some_iff.1 hq
      rfl
    simpa [ha, hab'] using List.mem_filter.1 hc
  · intro hnot
    exact ⟨a, List.mem_filter.2 ⟨ha, by simpa [hab'] using hnot⟩, by simp [hab']⟩

theorem parentsPaired_of_shared (hsrc : src.Sound) (hw : p.image? w = some x)
    (ha : a ∈ sharedChildren src dst p w x) :
    ∃ b, p.image? a = some b ∧ dst.forest.parent? b = some x ∧ ParentsPaired src dst p a b := by
  obtain ⟨hparent, b, hab, hb⟩ := (mem_sharedChildren hsrc).1 ha
  exact ⟨b, hab, hb, .inr ⟨w, x, hparent, hb, hw⟩⟩

variable {l : List Action} {y : NodeId}

theorem Logged.not_moved (h : Logged src dst p placed l) (hsrc : src.Sound) (hx : x ∉ placed)
    (hw : p.image? w = some x) (ha : a ∈ sharedChildren src dst p w x) : a ∉ movedNodes l := by
  intro hmoved
  obtain ⟨b, hab, hb, hyes⟩ := parentsPaired_of_shared hsrc hw ha
  obtain ⟨b', hmem⟩ := mem_movedNodes.1 hmoved
  obtain ⟨hab', hcases⟩ := h.moves a b' hmem
  cases hab.symm.trans hab'
  rcases hcases with ⟨hno, _⟩ | ⟨_, y, hy, hby⟩
  · exact hno hyes
  · cases hb.symm.trans hby
    exact hx hy

theorem Brought.not_moved (h : Brought src dst p y l) (hsrc : src.Sound) (hw : p.image? w = some x)
    (ha : a ∈ sharedChildren src dst p w x) : a ∉ movedNodes l := by
  intro hmoved
  obtain ⟨b, hab, _, hyes⟩ := parentsPaired_of_shared hsrc hw ha
  obtain ⟨b', hmem⟩ := mem_movedNodes.1 hmoved
  obtain ⟨_, hay, hno⟩ := (h.moves a b').1 hmem
  cases hab.symm.trans hay
  exact hno hyes

theorem Strayed.not_moved (h : Strayed src dst p y l) (hsrc : src.Sound) (hne : x ≠ y)
    (hw : p.image? w = some x) (ha : a ∈ sharedChildren src dst p w x) : a ∉ movedNodes l := by
  intro hmoved
  obtain ⟨b, hab, hb, _⟩ := parentsPaired_of_shared hsrc hw ha
  obtain ⟨b', hmem⟩ := mem_movedNodes.1 hmoved
  obtain ⟨hab', hby, _⟩ := h.moves a b' hmem
  cases hab.symm.trans hab'
  exact hne (Option.some.inj (hb.symm.trans hby))

theorem visit_moves (hs : Setting (scripting src dst) src p) (h : Visited src dst p placed d)
    (hx : Next (scripting src dst) placed x) (hline : InLine src d) (hw : p.image? w = some x)
    (hvisit : d.visit (scripting src dst) x = .ok d') :
    ∃ kept, Longest src dst p w x kept ∧
      ∀ a ∈ sharedChildren src dst p w x, a ∈ movedNodes d'.journal.toList ↔ a ∉ kept := by
  obtain ⟨w', d₁, hbring, hw', hb, _, hline₁⟩ :=
    bring_spec hs (stable_inLine hs) h.base h.order hx hline
  obtain rfl : w' = w := by
    have hold := (hb.pair w x).1 (hb.old w x hw)
    exact Option.some.inj (hw'.symm.trans hold)
  obtain ⟨own, hjournal, hown, _⟩ := bring_writes hs h.base hx h.untouched hbring
  have hstill : ∀ a ∈ sharedChildren src dst p w' x, a ∉ movedNodes d₁.journal.toList := by
    intro a ha
    rw [hjournal, movedNodes_append, List.mem_append, not_or]
    exact ⟨h.logged.not_moved hs.src_sound hx.fresh hw ha, hown.not_moved hs.src_sound hw ha⟩
  have hleft := children_to_order_eq hs hb hline₁ hw (hx.children_fresh hs h.base) hstill
  rw [visit, hbring] at hvisit
  obtain ⟨kept, strays, hlongest, hjournal', hmoves⟩ :=
    orderChildren_moves (d := d₁.settle x) hs hb hw hleft hvisit
  refine ⟨kept, hlongest, fun a ha => ?_⟩
  have hbefore : a ∉ movedNodes (d₁.settle x).journal.toList := hstill a ha
  rw [hjournal', movedNodes_append, List.mem_append, or_iff_right hbefore, hmoves a ha]

/-- For every pair whose destination node was visited, all shared children were moved except a
longest run that may stay. -/
def Sorted (src dst : Tree) (p : Pairing) (placed : List NodeId) (l : List Action) : Prop :=
  ∀ x ∈ placed, ∀ w, p.image? w = some x → ∃ kept, Longest src dst p w x kept ∧
    ∀ a ∈ sharedChildren src dst p w x, a ∈ movedNodes l ↔ a ∉ kept

theorem Sorted.start : Sorted src dst p [] (start src p : Draft Action).journal.toList := by
  simp [Sorted]

theorem Sorted.visit (hs : Setting (scripting src dst) src p) (h : Visited src dst p placed d)
    (hx : Next (scripting src dst) placed x) (hline : InLine src d)
    (hvisit : d.visit (scripting src dst) x = .ok d')
    (hsorted : Sorted src dst p placed d.journal.toList) :
    Sorted src dst p (placed ++ [x]) d'.journal.toList := by
  intro y hy w hw
  rcases List.mem_append.1 hy with hy | hy
  · obtain ⟨own, strays, hjournal, hown, hstrays, _⟩ :=
      visit_writes hs h.base h.order hx h.untouched hvisit
    obtain ⟨kept, hlongest, hmoves⟩ := hsorted y hy w hw
    have hne : y ≠ x := fun he => hx.fresh (he ▸ hy)
    refine ⟨kept, hlongest, fun a ha => ?_⟩
    rw [hjournal, movedNodes_append, movedNodes_append, List.mem_append, List.mem_append,
      or_iff_left, hmoves a ha]
    exact not_or.2 ⟨hown.not_moved hs.src_sound hw ha, hstrays.not_moved hs.src_sound hne hw ha⟩
  · cases List.mem_singleton.1 hy
    exact visit_moves hs h hx hline hw hvisit

theorem Logged.nodup_movedNodes {l : List Action} (h : Logged src dst p placed l) :
    (movedNodes l).Nodup := by
  refine h.moves_nodup.map_on ?_
  rintro ⟨a, b⟩ hab ⟨a', b'⟩ hab' rfl
  have := (h.moves a b hab).1.symm.trans (h.moves a b' hab').1
  rw [Option.some.inj this]

theorem movesOneOf_deletes (nodes l : List NodeId) :
    (l.map Action.delete).countP (Action.movesOneOf nodes) = 0 := by
  simp [List.countP_eq_zero, Action.movesOneOf]

theorem countP_script (hnodup : (movedNodes d.journal.toList).Nodup) {nodes : List NodeId}
    (hnodes : nodes.Nodup) :
    (script src dst d).actions.countP (Action.movesOneOf nodes) =
      (nodes.filter (movedNodes d.journal.toList).contains).length := by
  rw [script, List.countP_append, movesOneOf_deletes, Nat.add_zero, countP_movesOneOf]
  refine ((List.perm_ext_iff_of_nodup (hnodup.filter _) (hnodes.filter _)).2 fun a => ?_).length_eq
  simp [and_comm]

theorem countP_longest (hnodup : (movedNodes d.journal.toList).Nodup) {nodes kept : List NodeId}
    (hnodes : nodes.Nodup) (hkept : kept.Sublist nodes)
    (hmoves : ∀ a ∈ nodes, a ∈ movedNodes d.journal.toList ↔ a ∉ kept) :
    (script src dst d).actions.countP (Action.movesOneOf nodes) + kept.length = nodes.length := by
  have hmoved : nodes.filter (movedNodes d.journal.toList).contains =
      nodes.filter fun a => !kept.contains a := by
    apply List.filter_congr
    intro a ha
    rw [Bool.eq_iff_iff]
    simpa using hmoves a ha
  have hsplit := List.length_eq_length_filter_add (l := nodes) kept.contains
  rw [filter_contains_of_sublist hkept hnodes] at hsplit
  rw [countP_script hnodup hnodes, hmoved, hsplit, Nat.add_comm]

end Draft

/-- Of the children that a pair shares, as many are moved as do not fit into a longest run that may
stay. So whatever run were to stay instead, there would be as many moves or more. -/
theorem ofPairing_fewest_moves (hsrc : src.Sound) (hdst : dst.Sound) (hp : p.Sound)
    (hwithin : p.Within src dst) :
    ∃ s, Script.ofPairing src dst p = .ok s ∧ ∀ w x, p.image? w = some x →
      ∃ longest, IsGreatest {n | ∃ l, MayStay src dst p w x l ∧ l.length = n} longest ∧
        s.actions.countP (Action.movesOneOf (sharedChildren src dst p w x)) + longest =
          (sharedChildren src dst p w x).length ∧
        ∀ l, MayStay src dst p w x l →
          s.actions.countP (Action.movesOneOf (sharedChildren src dst p w x)) ≤
            (sharedChildren src dst p w x).length - l.length := by
  obtain ⟨d, hscript, _, h, _, hsorted⟩ := Draft.ofPairing_induct
    (motive := fun placed d => Draft.InLine src d ∧ Draft.Sorted src dst p placed d.journal.toList)
    hsrc hdst hp hwithin ⟨.start hsrc, .start⟩ fun _ _ _ _ hs h hx hvisit ⟨hline, hsorted⟩ =>
      ⟨hline.visit hs h hx hvisit, hsorted.visit hs h hx hline hvisit⟩
  refine ⟨_, hscript, fun w x hw => ?_⟩
  have hx : x ∈ dst.breadthFirst := hdst.forest.mem_breadthFirst_iff.2 (hwithin w x hw).2
  obtain ⟨kept, hlongest, hmoves⟩ := hsorted x hx w hw
  have hcount : (Draft.script src dst d).actions.countP
      (Action.movesOneOf (sharedChildren src dst p w x)) + kept.length =
        (sharedChildren src dst p w x).length :=
    Draft.countP_longest h.logged.nodup_movedNodes (nodup_sharedChildren hsrc)
      hlongest.mayStay.left hmoves
  refine ⟨kept.length, ⟨⟨kept, hlongest.mayStay, rfl⟩, ?_⟩, hcount, fun l hl => ?_⟩
  · rintro n ⟨l, hl, rfl⟩
    exact hlongest.length_le l hl
  · have := hlongest.length_le l hl
    omega

def broom : Tree :=
  (((twig 0 1).addChild 1 { kind := .named 1 }).2.addChild 1 { kind := .named 1 }).2

theorem sound_broom : broom.Sound := ((sound_twig 0 1).addChild 1 _).addChild 1 _

/-- The first of three children becomes the last. -/
theorem ofPairing_fewest_moves_rotation :
    ∃ p, Pairing.empty.addAll [(1, 1), (2, 4), (3, 2), (4, 3)] = .ok p ∧
      ∃ s, Script.ofPairing broom broom p = .ok s ∧ ∀ w x, p.image? w = some x →
        ∃ longest, IsGreatest {n | ∃ l, MayStay broom broom p w x l ∧ l.length = n} longest ∧
          s.actions.countP (Action.movesOneOf (sharedChildren broom broom p w x)) + longest =
            (sharedChildren broom broom p w x).length ∧
          ∀ l, MayStay broom broom p w x l →
            s.actions.countP (Action.movesOneOf (sharedChildren broom broom p w x)) ≤
              (sharedChildren broom broom p w x).length - l.length := by
  obtain ⟨p, hadd, hp, hpairs⟩ := Pairing.Sound.empty.addAll
    (l := [(1, 1), (2, 4), (3, 2), (4, 3)]) (by decide) (by decide)
    (by simp [Pairing.image?, Pairing.origin?, Pairing.empty])
  have hreach : ∀ a ∈ [1, 2, 3, 4], broom.Reaches a := by
    simp only [List.forall_mem_cons]
    exact ⟨.refl, .single rfl, .single rfl, .single rfl, by simp⟩
  refine ⟨p, hadd, ofPairing_fewest_moves sound_broom sound_broom hp fun a b hab => ?_⟩
  rw [← hp.mem_pairs, hpairs] at hab
  have hnodes : ∀ q ∈ [(1, 1), (2, 4), (3, 2), (4, 3)], q.1 ∈ [1, 2, 3, 4] ∧ q.2 ∈ [1, 2, 3, 4] := by
    decide
  exact ⟨hreach a (hnodes (a, b) hab).1, hreach b (hnodes (a, b) hab).2⟩

end TreeDelta
