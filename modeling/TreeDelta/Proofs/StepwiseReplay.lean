import TreeDelta.Proofs.DraftTraces
import TreeDelta.Proofs.GuardedReplay
import TreeDelta.Proofs.RoundTrip

namespace TreeDelta

/-- Same numbers, parents, order of children, kinds and labels. -/
structure Forest.Alike (f g : Forest) : Prop where
  size : f.size = g.size
  parent : ∀ v, f.parent? v = g.parent? v
  children : ∀ v, f.childrenOf v = g.childrenOf v
  content : ∀ v, f.contentOf v = g.contentOf v

theorem Forest.Alike.has_iff {f g : Forest} (h : f.Alike g) (v : NodeId) : f.has v ↔ g.has v :=
  Forest.has_congr h.size v

theorem Forest.contentOf_of_not_has {f : Forest} {v : NodeId} (h : ¬ f.has v) :
    f.contentOf v = ⟨.top, none⟩ := by
  rw [contentOf, Option.not_isSome_iff_eq_none.1 h]

/-- The action does what it says: a new node gets the number it is announced with, a node that is
linked stands at the position that is given, and a node that is deleted has no children. -/
def Action.Lands (before after : Forest) : Action → Prop
  | .insert node _ parent position _ _ =>
      node = before.size + 1 ∧ (after.childrenOf parent)[position]? = some node
  | .move node _ parent position => (after.childrenOf parent)[position]? = some node
  | .delete node => before.has node ∧ before.childrenOf node = []
  | .update .. => True
  | .insertTree .. | .deleteTree .. => False

theorem Action.Lands.congr {f f' g g' : Forest} {a : Action} (h : a.Lands f g) (hf : f'.Alike f)
    (hg : g'.Alike g) : a.Lands f' g' := by
  cases a with
  | insert => exact ⟨h.1.trans (congrArg (· + 1) hf.size.symm), hg.children _ ▸ h.2⟩
  | move => exact (congrArg (·[_]?) (hg.children _)).trans h
  | delete => exact ⟨(hf.has_iff _).2 h.1, (hf.children _).trans h.2⟩
  | update => trivial
  | insertTree | deleteTree => exact h

theorem Forest.Sound.getElem?_place {f : Forest} {p c : NodeId} {k : Nat} (h : f.Sound)
    (hp : f.has p) (hk : k ≤ ((f.childrenOf p).erase c).length) :
    ((f.place p c k).childrenOf p)[k]? = some c := by
  rw [h.childrenOf_place hp, if_pos rfl, List.getElem?_append_right (by simp)]
  simp [hk]

namespace Replay

variable {dst : Tree} {r r' : Replay} {index : Nat} {a : Action} {node x parent : NodeId} {k : Nat}

theorem numbers_of_insert {kind : Kind} {label : Option String}
    (h : r.apply dst index (.insert node x parent k kind label) = .ok r') :
    r'.work.size = r.work.size + 1 ∧
      ∀ v, r'.name v = if node = v then r.work.size + 1 else r.name v := by
  obtain ⟨z, _, h⟩ := exists_of_bind_eq_ok h
  obtain ⟨_, _, h⟩ := exists_of_bind_eq_ok h
  cases h
  refine ⟨?_, fun v => Draft.Mirror.name_link r _ node _ z k v⟩
  exact (Forest.size_place _ _ _ _).trans (Forest.size_alloc _ _)

theorem numbers_of_apply (h : r.apply dst index a = .ok r') (ha : a.makes? = none) :
    r'.work.size = r.work.size ∧ ∀ v, r'.name v = r.name v := by
  cases a with
  | insert => cases ha
  | insertTree => cases ha
  | delete node =>
      obtain ⟨node, _, h⟩ := exists_of_bind_eq_ok h
      dsimp only at h
      split at h
      · cases h
      · cases h
        exact ⟨Forest.size_detach _ _, fun _ => rfl⟩
  | deleteTree node =>
      obtain ⟨node, _, h⟩ := exists_of_bind_eq_ok h
      cases h
      exact ⟨Forest.size_detach _ _, fun _ => rfl⟩
  | update node x old new retype =>
      obtain ⟨node, _, h⟩ := exists_of_bind_eq_ok h
      cases h
      exact ⟨Forest.size_modify _ _ _, fun _ => rfl⟩
  | move node x parent position =>
      obtain ⟨node, _, h⟩ := exists_of_bind_eq_ok h
      obtain ⟨parent, _, h⟩ := exists_of_bind_eq_ok h
      dsimp only at h
      split at h
      · cases h
      · obtain ⟨_, _, h⟩ := exists_of_bind_eq_ok h
        cases h
        exact ⟨(Forest.size_place _ _ _ _).trans (Forest.size_detach _ _), fun _ => rfl⟩

/-- Applying the actions of the list to `r`, each one after the other, gives forests like those of
the list, every action does what it says, and no node gets another number. -/
inductive Through (dst : Tree) (r : Replay) : List (Action × Forest) → Replay → Prop
  | start : Through dst r [] r
  | step {l : List (Action × Forest)} {r₁ r₂ : Replay} {a : Action} {f : Forest}
      (hl : Through dst r l r₁) (happly : r₁.apply dst l.length a = .ok r₂)
      (hlands : a.Lands r₁.work r₂.work) (hlike : r₂.work.Alike f) (hname : ∀ v, r₂.name v = v) :
      Through dst r (l ++ [(a, f)]) r₂

namespace Through

variable {l done rest : List (Action × Forest)}

theorem applyAll_eq (h : Through dst r l r') : r.applyAll dst 0 (l.map Prod.fst) = .ok r' := by
  induction h with
  | start => rfl
  | @step l r₁ r₂ a f hl happly _ _ _ ih =>
      rw [List.map_append, applyAll_append, ih]
      change (r₁.apply dst (0 + (l.map Prod.fst).length) a >>= fun s => .ok s) = _
      rw [List.length_map, Nat.zero_add, happly]
      rfl

theorem alike {f : Forest} (h : Through dst r l r') (hr : r.work.Alike f)
    (hname : ∀ v, r.name v = v) :
    r'.work.Alike ((l.getLast?.map Prod.snd).getD f) ∧ ∀ v, r'.name v = v := by
  cases h with
  | start => exact ⟨hr, hname⟩
  | step _ _ _ hlike hname => exact ⟨by simpa using hlike, hname⟩

theorem split (h : Through dst r l r') (hl : l = done ++ rest) :
    ∃ s, Through dst r done s ∧ ∀ a f, rest.head? = some (a, f) →
      ∃ s', s.apply dst done.length a = .ok s' ∧ a.Lands s.work s'.work := by
  induction h generalizing rest with
  | start =>
      obtain ⟨rfl, rfl⟩ := List.append_eq_nil_iff.1 hl.symm
      exact ⟨r, .start, by simp⟩
  | @step l r₁ r₂ a f hthrough happly hlands hlike hname ih =>
      rcases List.eq_nil_or_concat' rest with rfl | ⟨init, last, rfl⟩
      · rw [List.append_nil] at hl
        exact ⟨r₂, hl ▸ .step hthrough happly hlands hlike hname, by simp⟩
      · rw [← List.append_assoc] at hl
        obtain ⟨rfl, hlast⟩ := List.append_inj' hl rfl
        cases hlast
        cases init with
        | nil =>
            rw [List.append_nil] at hthrough happly
            refine ⟨r₁, hthrough, fun b g hb => ?_⟩
            cases hb
            exact ⟨r₂, happly, hlands⟩
        | cons head init =>
            obtain ⟨s, hs, hnext⟩ := ih rfl
            exact ⟨s, hs, fun b g hb => hnext b g hb⟩

end Through

end Replay

namespace Draft

variable {ε : Type} {t : Task ε} {src : Tree} {p : Pairing} {placed : List NodeId} {d d' : Draft ε}
  {work : Forest} {q : Pairing} {r r' : Replay} {a : Action} {n : NodeId}

theorem Step.lands (hb : Base t src p placed d.work d.pairing) (h : Step t placed d a d') :
    a.Lands d.work d'.work := by
  cases h with
  | @insert x k pairing hx hreach hseat hk hadd =>
      have hz := hb.has_seat hseat
      have hnew : d.work.size + 1 ∉ d.work.childrenOf (t.seat d.pairing x) := fun hmem =>
        d.work.not_has_succ_size (hb.links.has_child hmem)
      refine ⟨rfl, (hb.links.alloc (t.dst.forest.infoOf x)).getElem?_place
        ((d.work.has_alloc_iff _ _).2 (.inr hz)) ?_⟩
      rw [Forest.childrenOf_alloc, List.erase_of_not_mem hnew]
      exact hk
  | update => trivial
  | move hx hw hseat hk => exact hb.links.getElem?_place (hb.has_seat hseat) hk

structure Shadows (t : Task ε) (work : Forest) (q : Pairing) (r : Replay) : Prop where
  mirror : Mirror t ∅ work q r
  size : r.work.size = work.size
  name : ∀ v, r.name v = v

namespace Shadows

theorem alike (h : Shadows t work q r) : r.work.Alike work := by
  have hid : r.name = id := funext h.name
  have hhas := Forest.has_congr h.size
  -- nothing is inserted as part of a whole subtree, so every node is shown
  have hshown : ∀ {v}, work.has v → Shown t ∅ work q v :=
    fun hv => ⟨hv, fun y _ hcov => by simp [Covered] at hcov⟩
  have hplain : ∀ v, Plain ∅ q v := fun v y _ => by simp
  refine ⟨h.size, fun v => ?_, fun v => ?_, fun v => ?_⟩
  · by_cases hv : work.has v
    · simpa [hid] using h.mirror.parent v (hshown hv)
    · rw [Forest.parent?_eq_none hv, Forest.parent?_eq_none (mt (hhas v).1 hv)]
  · by_cases hv : work.has v
    · simpa [hid] using h.mirror.children v (hshown hv) (hplain v)
    · rw [Forest.childrenOf_eq_nil hv, Forest.childrenOf_eq_nil (mt (hhas v).1 hv)]
  · by_cases hv : work.has v
    · simpa [hid] using h.mirror.content v (hshown hv)
    · rw [Forest.contentOf_of_not_has hv, Forest.contentOf_of_not_has (mt (hhas v).1 hv)]

theorem start (hs : Setting t src p) :
    Shadows t (src.forest.underTop src.root).2 p (Replay.start src) where
  mirror := .start hs (.empty src t.dst p) (Replay.name_start src) rfl
  size := rfl
  name := Replay.name_start src

theorem keep {work' : Forest} {q' : Pairing} {dst : Tree} {index : Nat} (h : Shadows t work q r)
    (happly : r.apply dst index a = .ok r') (ha : a.makes? = none) (hsize : work'.size = work.size)
    (hm : Mirror t ∅ work' q' r') : Shadows t work' q' r' := by
  obtain ⟨hsame, hname⟩ := Replay.numbers_of_apply happly ha
  exact ⟨hm, (hsame.trans h.size).trans hsize.symm, fun v => (hname v).trans (h.name v)⟩

theorem step (hs : Setting t src p) (hb : Base t src p placed d.work d.pairing)
    (h : Shadows t d.work d.pairing r) (hstep : Step t placed d a d') (index : Nat) :
    ∃ r', r.apply t.dst index a = .ok r' ∧ a.Lands r.work r'.work ∧
      Shadows t d'.work d'.pairing r' := by
  obtain ⟨r', happly, hm⟩ := h.mirror.step hs hb (.empty src t.dst p) hstep index
  rw [Script.condenseAction_empty] at happly
  change r.apply t.dst index a = .ok r' at happly
  have hnext : Shadows t d'.work d'.pairing r' := by
    cases hstep with
    | @insert x k =>
        obtain ⟨hsize, hname⟩ := Replay.numbers_of_insert happly
        refine ⟨hm, ?_, fun v => ?_⟩
        · change _ = (Forest.place _ _ _ _).size
          rw [Forest.size_place, Forest.size_alloc, hsize, h.size]
        · rw [hname, h.name, h.size]
          split
          · assumption
          · rfl
    | update => exact h.keep happly rfl (Forest.size_modify _ _ _) hm
    | move => exact h.keep happly rfl (Forest.size_place _ _ _ _) hm
  exact ⟨r', happly, (hstep.lands hb).congr h.alike hnext.alike, hnext⟩

theorem delete {pre post : List NodeId} (hd : Finished t src p d)
    (h : Shadows t (d.work.detachAll pre) d.pairing r)
    (hsplit : d.leftovers t = pre ++ n :: post) (index : Nat) :
    ∃ r', r.apply t.dst index (.delete n) = .ok r' ∧ (Action.delete n).Lands r.work r'.work ∧
      Shadows t (d.work.detachAll (pre ++ [n])) d.pairing r' := by
  have htaken : ∀ l, taken src ∅ l = l := by
    refine fun l => List.filter_eq_self.2 fun n _ => ?_
    cases src.forest.parent? n <;> simp
  have hm := h.mirror
  rw [← htaken pre] at hm
  obtain ⟨r', happly, hm'⟩ := hm.delete hd (.empty src t.dst p) hsplit index
  rw [Script.condenseAction_empty] at happly
  change r.apply t.dst index (.delete n) = .ok r' at happly
  rw [htaken] at hm'
  have hleaf : (d.work.detachAll pre).childrenOf n = [] := by
    rw [← htaken pre]
    exact hd.children_pruned hsplit (.inl (by simp))
  have hhas : d.work.has n := hd.base.links.has_of_under
    (hd.mem_leftovers_iff.1 (by simp [hsplit])).1 hd.base.has_top
  refine ⟨r', happly, ?_, h.keep happly rfl (by simp) hm'⟩
  exact ⟨(h.alike.has_iff n).2 ((Forest.has_congr (Forest.size_detachAll _ _) n).2 hhas),
    (h.alike.children n).trans hleaf⟩

end Shadows

theorem deletions_concat (f : Forest) (l : List NodeId) (n : NodeId) :
    deletions f (l ++ [n]) = deletions f l ++ [(.delete n, f.detachAll (l ++ [n]))] := by
  induction l generalizing f with
  | nil => rfl
  | cons m l ih => exact congrArg (_ :: ·) (ih (f.detach m))

variable {dst : Tree}

abbrev tracing (src dst : Tree) : Task (Action × Forest) := ⟨dst, src.forest.size + 1, Prod.mk⟩

def Followed (src dst : Tree) (d : Draft (Action × Forest)) : Prop :=
  ∃ r, (Replay.start src).Through dst d.journal.toList r ∧
    Shadows (tracing src dst) d.work d.pairing r

theorem stable_followed (hs : Setting (tracing src dst) src p) :
    Stable (tracing src dst) src p (Followed src dst) where
  quiet _ _ h := h
  step placed _ d a d' hb hstep _ h := by
    obtain ⟨r, hthrough, hr⟩ := h
    obtain ⟨r', happly, hlands, hr'⟩ := hr.step hs hb hstep d.journal.toList.length
    refine ⟨r', ?_, hr'⟩
    rw [hstep.journal_eq, Array.toList_push]
    exact .step hthrough happly hlands hr'.alike hr'.name

theorem through_deletions {d : Draft (Action × Forest)} {pre post : List NodeId}
    (hd : Finished (tracing src dst) src p d) (h : Followed src dst d)
    (hsplit : d.leftovers (tracing src dst) = pre ++ post) :
    ∃ r, (Replay.start src).Through dst (d.journal.toList ++ deletions d.work pre) r ∧
      Shadows (tracing src dst) (d.work.detachAll pre) d.pairing r := by
  induction pre using List.reverseRecOn generalizing post with
  | nil =>
      obtain ⟨r, hthrough, hr⟩ := h
      exact ⟨r, by simpa [deletions] using hthrough, hr⟩
  | append_singleton pre n ih =>
      have hsplit' : d.leftovers (tracing src dst) = pre ++ n :: post := by simpa using hsplit
      obtain ⟨r, hthrough, hr⟩ := ih hsplit'
      obtain ⟨r', happly, hlands, hr'⟩ := hr.delete hd hsplit'
        (d.journal.toList ++ deletions d.work pre).length
      refine ⟨r', ?_, hr'⟩
      rw [deletions_concat, ← List.append_assoc]
      exact .step hthrough happly hlands hr'.alike hr'.name

end Draft

variable {src dst : Tree} {p : Pairing}

/-- Draft and replay of a script simulate each other. Whatever number of actions is replayed, the
replay then has the nodes, links and contents that the working copy of the draft had right after
the last of these actions, and the next action can be applied and does what it says. -/
theorem replay_follows_draft (hsrc : src.Sound) (hdst : dst.Sound) (hp : p.Sound)
    (hwithin : p.Within src dst) :
    ∃ s t d, Script.ofPairing src dst p = .ok s ∧
      Draft.run src dst p Prod.mk = .ok (t, d) ∧ s.actions = (d.trace t).map Prod.fst ∧
      ∀ done rest, d.trace t = done ++ rest →
        ∃ r, (s.opening src).applyAll dst 0 (done.map Prod.fst) = .ok r ∧
          r.work.Alike ((done.getLast?.map Prod.snd).getD (src.forest.underTop src.root).2) ∧
          (∀ v, r.name v = v) ∧
          ∀ a f, rest.head? = some (a, f) →
            ∃ r', r.apply dst done.length a = .ok r' ∧ a.Lands r.work r'.work := by
  have hs : Draft.Setting (Draft.tracing src dst) src p := ⟨hsrc, hdst, rfl, hp, hwithin⟩
  have hstart := Draft.Shadows.start hs
  obtain ⟨d, hrun, hb, ho, hfollowed⟩ := Draft.run_spec hs (Draft.stable_followed hs)
    ⟨Replay.start src, .start, hstart⟩
  obtain ⟨r, hthrough, _⟩ := Draft.through_deletions ⟨hs, hb, ho⟩ hfollowed (List.append_nil _).symm
  refine ⟨_, _, d, Draft.ofPairing_of_run hrun, hrun, rfl, fun done rest hsplit => ?_⟩
  obtain ⟨s, hdone, hnext⟩ := hthrough.split hsplit
  obtain ⟨hlike, hname⟩ := hdone.alike hstart.alike hstart.name
  exact ⟨s, hdone.applyAll_eq, hlike, hname, hnext⟩

/-- A leaf is paired with a root: it is updated and moved up, gets an inserted child, and its old
parent is deleted. -/
theorem replay_follows_draft_promotion :
    ∃ p, Pairing.empty.addAll [(2, 1)] = .ok p ∧
      ∃ s t d, Script.ofPairing (twig 0 1) (twig 2 3) p = .ok s ∧
        Draft.run (twig 0 1) (twig 2 3) p Prod.mk = .ok (t, d) ∧
        s.actions = (d.trace t).map Prod.fst ∧
        ∀ done rest, d.trace t = done ++ rest →
          ∃ r, (s.opening (twig 0 1)).applyAll (twig 2 3) 0 (done.map Prod.fst) = .ok r ∧
            r.work.Alike ((done.getLast?.map Prod.snd).getD
              ((twig 0 1).forest.underTop (twig 0 1).root).2) ∧
            (∀ v, r.name v = v) ∧
            ∀ a f, rest.head? = some (a, f) →
              ∃ r', r.apply (twig 2 3) done.length a = .ok r' ∧ a.Lands r.work r'.work := by
  obtain ⟨p, hadd, hp, hpairs⟩ := Pairing.Sound.empty.addAll (l := [(2, 1)]) (by decide)
    (by decide) (by simp [Pairing.image?, Pairing.origin?, Pairing.empty])
  refine ⟨p, hadd, replay_follows_draft (sound_twig 0 1) (sound_twig 2 3) hp fun x y hxy => ?_⟩
  rw [← hp.mem_pairs, hpairs] at hxy
  obtain ⟨rfl, rfl⟩ : x = 2 ∧ y = 1 := by simpa [Pairing.pairs, Pairing.empty] using hxy
  exact ⟨(reaches_twig 0 1).2, (reaches_twig 2 3).1⟩

end TreeDelta
