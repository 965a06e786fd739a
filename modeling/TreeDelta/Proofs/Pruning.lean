import TreeDelta.Proofs.DraftEnd
import TreeDelta.Proofs.Simulation

namespace TreeDelta

namespace Forest

variable {f : Forest}

def detachAll (f : Forest) (l : List NodeId) : Forest := l.foldl detach f

theorem detachAll_append (f : Forest) (l : List NodeId) (n : NodeId) :
    f.detachAll (l ++ [n]) = (f.detachAll l).detach n := by
  simp [detachAll]

@[simp] theorem size_detachAll (f : Forest) (l : List NodeId) : (f.detachAll l).size = f.size := by
  induction l generalizing f with
  | nil => rfl
  | cons a l ih => exact (ih (f.detach a)).trans (size_detach f a)

theorem infoOf_detachAll (f : Forest) (l : List NodeId) (j : NodeId) :
    (f.detachAll l).infoOf j = f.infoOf j := by
  induction l generalizing f with
  | nil => rfl
  | cons a l ih => exact (ih (f.detach a)).trans (infoOf_detach f a j)

theorem Sound.detachAll (h : f.Sound) (l : List NodeId) : (f.detachAll l).Sound := by
  induction l generalizing f with
  | nil => exact h
  | cons a l ih => exact ih (h.detach a)

theorem Sound.childrenOf_detachAll (h : f.Sound) (l : List NodeId) (j : NodeId) :
    (f.detachAll l).childrenOf j = (f.childrenOf j).filter fun c => !l.contains c := by
  induction l generalizing f with
  | nil => exact (List.filter_eq_self.2 fun _ _ => rfl).symm
  | cons a l ih =>
      refine (ih (h.detach a)).trans ?_
      rw [h.childrenOf_detach, (h.nodup_children j).erase_eq_filter, List.filter_filter]
      refine List.filter_congr fun c _ => ?_
      rw [List.contains_cons, Bool.not_or, Bool.and_comm]
      rfl

end Forest

namespace Draft

variable {ε : Type} {t : Task ε} {src : Tree} {p : Pairing} {d : Draft ε} {work : Forest}
  {q : Pairing} {added removed : Std.HashSet NodeId} {r : Replay} {c n v w y : NodeId}

theorem Mirror.detach (hlinks : work.Sound) (hm : Mirror t added work q r)
    (hshown : ∀ v, Plain added q v → ∀ c ∈ work.childrenOf v, Shown t added work q c)
    (hn : Shown t added work q n) (hlow : n ≤ t.top) :
    Mirror t added (work.detach n) q { r with work := r.work.detach n } := by
  have hname := hm.low n hlow
  have hold : ∀ {v}, Shown t added (work.detach n) q v → Shown t added work q v :=
    fun hv => ⟨(Forest.has_congr (Forest.size_detach work n) _).1 hv.1, hv.2⟩
  constructor
  case links => exact hm.links.detach n
  case low => exact hm.low
  case high =>
    intro v hv
    exact hm.high v (hold hv)
  case has =>
    intro v hv
    exact (Forest.has_congr (Forest.size_detach r.work n) _).2 (hm.has v (hold hv))
  case inj =>
    intro u v hu hv
    exact hm.inj u v (hold hu) (hold hv)
  case parent =>
    intro v hv
    change (r.work.detach n).parent? (r.name v) = ((work.detach n).parent? v).map r.name
    rw [Forest.parent?_detach, Forest.parent?_detach, hm.parent v (hold hv)]
    by_cases hnv : n = v
    · subst hnv
      rw [if_pos hname.symm, if_pos rfl]
      rfl
    · rw [if_neg fun he => hnv (hm.inj n v hn (hold hv) (hname.trans he)), if_neg hnv]
  case children =>
    intro v hv hp
    change (r.work.detach n).childrenOf (r.name v) = ((work.detach n).childrenOf v).map r.name
    rw [hm.links.childrenOf_detach, hlinks.childrenOf_detach, hm.children v (hold hv) hp]
    conv_lhs => rw [← hname]
    exact erase_map fun c hc he => hm.inj c n (hshown v hp c hc) hn he
  case content =>
    intro v hv
    change (r.work.detach n).contentOf (r.name v) = (work.detach n).contentOf v
    rw [Forest.contentOf_detach, hm.content v (hold hv), Forest.contentOf_detach]
  case whole =>
    intro v y hv hy hadded
    refine hm.whole_of_same (hm.links.detach n) (hold hv) hy hadded (fun b hvb => ?_) fun b _ => ?_
    · rw [hm.links.childrenOf_detach, List.erase_of_not_mem]
      intro hmem
      have hlt := hm.top_lt (hold hv) hy hadded (hvb.tail ((hm.links.mem_children b n).1 hmem))
      exact absurd hlt (Nat.not_lt.2 hlow)
    · rw [Forest.contentOf_detach]

def taken (src : Tree) (removed : Std.HashSet NodeId) (l : List NodeId) : List NodeId :=
  l.filter fun n => !(src.forest.parent? n).any removed.contains

namespace Finished

theorem shown_pruned (h : Finished t src p d) (hbun : Bundled src t.dst p added removed)
    (l : List NodeId) (hv : Plain added d.pairing v)
    (hc : c ∈ (d.work.detachAll l).childrenOf v) :
    Shown t added (d.work.detachAll l) d.pairing c := by
  rw [h.base.links.childrenOf_detachAll] at hc
  have hpc := (h.base.links.mem_children v c).1 (List.mem_filter.1 hc).1
  obtain ⟨hhas, himage⟩ := h.base.shown_child h.setting hbun hv hpc
  exact ⟨(Forest.has_congr (Forest.size_detachAll _ _) c).2 hhas, himage⟩

theorem children_pruned {pre post : List NodeId} (h : Finished t src p d)
    (hsplit : d.leftovers t = pre ++ n :: post)
    (hn : ¬ removed.contains n ∨ src.forest.childrenOf n = []) :
    (d.work.detachAll (taken src removed pre)).childrenOf n = [] := by
  rw [h.base.links.childrenOf_detachAll, List.filter_eq_nil_iff]
  intro c hc
  have hpc := (h.base.links.mem_children n c).1 hc
  have hsrc := (h.leftover_child (by simp [hsplit]) hpc).2
  have hmem : c ∈ taken src removed pre := by
    refine List.mem_filter.2 ⟨h.respects_leftovers hsplit hpc, ?_⟩
    rcases hn with hno | hnone
    · simpa [hsrc] using hno
    · have := (h.setting.src_sound.forest.mem_children n c).2 hsrc
      simp [hnone] at this
  simpa using hmem

end Finished

theorem Mirror.delete {pre post : List NodeId} (h : Finished t src p d)
    (hbun : Bundled src t.dst p added removed)
    (hm : Mirror t added (d.work.detachAll (taken src removed pre)) d.pairing r)
    (hsplit : d.leftovers t = pre ++ n :: post) (index : Nat) :
    ∃ r', r.applyOption t.dst index
        (Script.condenseAction src t.dst added removed (.delete n)) = .ok r' ∧
      Mirror t added (d.work.detachAll (taken src removed (pre ++ [n]))) d.pairing r' := by
  have hn : n ∈ d.leftovers t := by simp [hsplit]
  obtain ⟨hunder, htop, hfree⟩ := h.mem_leftovers_iff.1 hn
  have hhas := h.base.links.has_of_under hunder h.base.has_top
  obtain ⟨hsrc, hlow, _⟩ := h.leftover_home hhas htop hfree
  have hplain : Plain added d.pairing n := fun y hy => by rw [hfree] at hy; cases hy
  have hshown : Shown t added (d.work.detachAll (taken src removed pre)) d.pairing n :=
    shown_of_plain hbun ((Forest.has_congr (Forest.size_detachAll _ _) n).2 hhas) hplain
  by_cases hskip : (src.forest.parent? n).any removed.contains
  · -- a subtree that contains `n` is deleted as a whole
    have htaken : taken src removed (pre ++ [n]) = taken src removed pre := by
      simp [taken, hskip]
    refine ⟨r, ?_, by rwa [htaken]⟩
    obtain ⟨m, hm, hrem⟩ := (Option.any_eq_true _ _).1 hskip
    rw [Script.condenseAction, if_pos (hbun.removed_below n m hm hrem), Script.condenseAt,
      if_pos hskip]
    rfl
  · have htaken : taken src removed (pre ++ [n]) = taken src removed pre ++ [n] := by
      simp [taken, hskip]
    have hname := hm.low n hlow
    refine ⟨{ r with work := r.work.detach n }, ?_, ?_⟩
    · have hsingle : ¬ removed.contains n ∨ src.forest.childrenOf n = [] →
          r.apply t.dst index (.delete n) = .ok { r with work := r.work.detach n } := by
        intro hn
        rw [Replay.apply_delete (hm.has n hshown), hname]
        rw [hm.children n hshown hplain, h.children_pruned hsplit hn, List.map_nil]
      by_cases hrem : removed.contains n
      · rw [Script.condenseAction, if_pos hrem, Script.condenseAt, if_neg hskip]
        by_cases hnil : src.forest.childrenOf n = []
        · rw [hnil]
          exact hsingle (.inr hnil)
        · rw [if_neg (by simpa using hnil)]
          change r.apply t.dst index (.deleteTree n) = _
          rw [Replay.apply_deleteTree (hm.has n hshown), hname]
      · rw [Script.condenseAction, if_neg hrem]
        exact hsingle (.inl hrem)
    · rw [htaken, Forest.detachAll_append]
      exact hm.detach (h.base.links.detachAll _)
        (fun v hv c hc => h.shown_pruned hbun _ hv hc) hshown hlow

theorem Mirror.deleteAll {pre post : List NodeId} (h : Finished t src p d)
    (hbun : Bundled src t.dst p added removed)
    (hm : Mirror t added (d.work.detachAll (taken src removed pre)) d.pairing r)
    (hsplit : d.leftovers t = pre ++ post) (index : Nat) :
    ∃ r', r.applyAll t.dst index
        ((post.map Action.delete).filterMap (Script.condenseAction src t.dst added removed)) =
          .ok r' ∧
      Mirror t added (d.work.detachAll (taken src removed (d.leftovers t))) d.pairing r' := by
  induction post generalizing pre r index with
  | nil =>
      rw [List.append_nil] at hsplit
      exact ⟨r, rfl, hsplit ▸ hm⟩
  | cons n post ih =>
      obtain ⟨r₁, hr₁, hm₁⟩ := hm.delete h hbun hsplit index
      have hsplit' : d.leftovers t = (pre ++ [n]) ++ post := by simpa using hsplit
      rw [List.map_cons, List.filterMap_cons]
      cases hcond : Script.condenseAction src t.dst added removed (.delete n) with
      | none =>
          rw [hcond] at hr₁
          cases hr₁
          exact ih hm₁ hsplit' index
      | some a =>
          rw [hcond] at hr₁
          obtain ⟨r', hr', hm'⟩ := ih hm₁ hsplit' (index + 1)
          refine ⟨r', ?_, hm'⟩
          change (r.apply t.dst index a >>= _) = _
          rw [show r.apply t.dst index a = .ok r₁ from hr₁]
          exact hr'

namespace Finished

theorem children_remaining (h : Finished t src p d) (hbun : Bundled src t.dst p added removed)
    (hv : d.work.Under t.top v) (hkept : v = t.top ∨ ∃ y, d.pairing.image? v = some y) :
    (d.work.detachAll (taken src removed (d.leftovers t))).childrenOf v =
      (d.work.childrenOf v).filter d.pairing.srcPaired := by
  rw [h.base.links.childrenOf_detachAll]
  refine List.filter_congr fun c hc => ?_
  have hpc := (h.base.links.mem_children v c).1 hc
  cases himage : d.pairing.image? c with
  | some b =>
      have hnot : c ∉ taken src removed (d.leftovers t) := by
        intro hmem
        have := (h.mem_leftovers_iff.1 (List.mem_filter.1 hmem).1).2.2
        rw [himage] at this
        cases this
      simpa [Pairing.srcPaired, himage] using hnot
  | none =>
      have hctop : c ≠ t.top := by
        rintro rfl
        rw [h.base.top_parent] at hpc
        cases hpc
      have hhome := (h.leftover_home (Forest.has_of_parent? hpc) hctop himage).2.2
      have hmem : c ∈ taken src removed (d.leftovers t) := by
        refine List.mem_filter.2 ⟨h.mem_leftovers_iff.2 ⟨hv.tail hpc, hctop, himage⟩, ?_⟩
        -- the source parent of `c` is `v`, which is not removed, unless `c` is the source root
        rw [hpc, Tree.home] at hhome
        split at hhome
        · next hroot => simp [hroot, h.setting.src_sound.root_parent]
        · rw [← hhome]
          have hvsrc := h.setting.src_sound.forest.has_parent hhome.symm
          rcases hkept with rfl | ⟨y, hy⟩
          · rw [h.setting.top_eq] at hvsrc
            exact absurd hvsrc src.forest.not_has_succ_size
          · have hno : ¬ removed.contains v := by
              intro hrem
              have := h.base.old_of_has h.setting hvsrc hy
              rw [hbun.removed_free v hrem] at this
              cases this
            simpa using hno
      simpa [Pairing.srcPaired, himage] using hmem

end Finished

end Draft

end TreeDelta
