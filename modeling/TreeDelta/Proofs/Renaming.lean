import TreeDelta.Diff
import TreeDelta.Proofs.RenamedContainers
import TreeDelta.Proofs.RenamedIdentical
import TreeDelta.Proofs.RenamedScripts

namespace TreeDelta

variable {c : Config} {r s : NodeId → NodeId → Prop} {t u src src' dst dst' : Tree}

theorem lockstep_matching [TokenHash] (hs : src.Renamed r src') (hd : dst.Renamed s dst') :
    Lockstep (Pairing.Renamed r s) (matching c src dst) (matching c src' dst') := by
  have hextend : InStep r s (fun _ _ => True) (extendMatching c src dst)
      (extendMatching c src' dst') :=
    (Identical.inStep_run hs hd).bind fun _ _ _ => Containers.inStep_run hs hd
  obtain ⟨hout, hpairing⟩ := hextend _ _ (.withCapacity src.forest.size dst.forest.size
    src'.forest.size dst'.forest.size)
  rw [matching, matching, if_pos (by rw [hs.left.isMeasured, hd.left.isMeasured]; rfl),
    if_pos (by rw [hs.right.isMeasured, hd.right.isMeasured]; rfl)]
  generalize (extendMatching c src dst).run _ = x at hout hpairing ⊢
  generalize (extendMatching c src' dst').run _ = x' at hout hpairing ⊢
  obtain ⟨x, p⟩ := x
  obtain ⟨x', p'⟩ := x'
  cases hout with
  | ok _ => exact .ok hpairing
  | error e => exact .error e

theorem lockstep_between [TokenHash] (hs : src.Renamed r src') (hd : dst.Renamed s dst') :
    Lockstep (Script.Renamed (Placed r src.forest.size src'.forest.size) s)
      (Script.between c src dst) (Script.between c src' dst') :=
  (lockstep_matching hs hd).bind fun _ _ hp => Script.lockstep_ofPairing hs hd hp

def Tree.counterpart (t u : Tree) (a : NodeId) : NodeId := u.preorder.getD (t.preorder.idxOf a) 0

/-- The new name of a node of a working copy of `t`: old nodes are named by their places, the top
node and the inserted ones by the order of their creation. -/
def Tree.successor (t u : Tree) (a : NodeId) : NodeId :=
  if a ≤ t.forest.size then t.counterpart u a else u.forest.size + (a - t.forest.size)

/-- The same action with other names, `f` for nodes of the working copy and `g` for nodes of the
destination. -/
def Action.rename (f g : NodeId → NodeId) : Action → Action
  | .insert node x parent position kind label =>
      .insert (f node) (g x) (f parent) position kind label
  | .insertTree node x parent position => .insertTree (f node) (g x) (f parent) position
  | .delete node => .delete (f node)
  | .deleteTree node => .deleteTree (f node)
  | .update node x old new retype => .update (f node) (g x) old new retype
  | .move node x parent position => .move (f node) (g x) (f parent) position

def Script.rename (f g : NodeId → NodeId) (x : Script) : Script :=
  ⟨x.actions.map (Action.rename f g), f x.top⟩

theorem Tree.Renamed.counterpart_eq [TokenHash] (h : t.Renamed r u) {a b : NodeId} (hab : r a b) :
    t.counterpart u a = b := by
  have hmem : b ∈ u.preorder := h.right.sound.mem_preorder_iff.2 (h.reaches hab).2
  rw [counterpart, h.preorder.idxOf_eq h.unique hab, List.getD_eq_getElem?_getD,
    List.getElem?_idxOf hmem, Option.getD_some]

theorem Tree.Renamed.successor_eq [TokenHash] (h : t.Renamed r u) {a b : NodeId}
    (hab : Placed r t.forest.size u.forest.size a b) : t.successor u a = b := by
  cases hab with
  | old hab => rw [successor, if_pos (h.le_size a b hab).1, h.counterpart_eq hab]
  | new k =>
      have hnew : t.forest.size + k + 1 - t.forest.size = k + 1 := by omega
      rw [successor, if_neg (Nat.not_le.2 (Nat.lt_succ_of_le (Nat.le_add_right _ k))), hnew,
        Nat.add_assoc]

section Names

variable {w : NodeId → NodeId → Prop} {f g : NodeId → NodeId} (hf : ∀ a b, w a b → f a = b)
  (hg : ∀ a b, s a b → g a = b)
include hf hg

theorem Action.Renamed.rename_eq {x y : Action} (h : Action.Renamed w s x y) :
    x.rename f g = y := by
  cases h with
  | insert hnode hx hparent => rw [rename, hf _ _ hnode, hg _ _ hx, hf _ _ hparent]
  | insertTree hnode hx hparent => rw [rename, hf _ _ hnode, hg _ _ hx, hf _ _ hparent]
  | delete hnode => rw [rename, hf _ _ hnode]
  | deleteTree hnode => rw [rename, hf _ _ hnode]
  | update hnode hx => rw [rename, hf _ _ hnode, hg _ _ hx]
  | move hnode hx hparent => rw [rename, hf _ _ hnode, hg _ _ hx, hf _ _ hparent]

theorem Script.Renamed.rename_eq {x y : Script} (h : Script.Renamed w s x y) :
    x.rename f g = y := by
  have hactions := h.actions.map_eq_map (g := id) fun _ _ ha => ha.rename_eq hf hg
  rw [Script.rename, hactions, List.map_id, hf _ _ h.top]

theorem Pairing.Renamed.rename_eq {p p' : Pairing} (h : p.Renamed w s p') :
    p.pairs.map (Prod.map f g) = p'.pairs := by
  have hpairs := h.pairs.map_eq_map (f := Prod.map f g) (g := id) fun _ _ hx =>
    Prod.ext (hf _ _ hx.1) (hg _ _ hx.2)
  rw [hpairs, List.map_id]

end Names

theorem Lockstep.map_eq {α α' β ε : Type} {out : α → α' → Prop} {x : Except ε α}
    {x' : Except ε α'} (h : Lockstep out x x') {f : α → β} {g : α' → β}
    (hfg : ∀ a a', out a a' → f a = g a') : x.map f = x'.map g := by
  cases h with
  | ok ha => exact congrArg Except.ok (hfg _ _ ha)
  | error e => rfl

/-- Node numbers do not matter. For trees with the same outlines, the matchings are the same pairs
of places in the same order, and the scripts, plain and condensed, are the same actions under the
new names of the nodes; where one run fails, the other one fails for the same reason. -/
theorem diff_of_same_outlines [TokenHash] (c : Config) (hs : src.Surveyed) (hs' : src'.Surveyed)
    (hd : dst.Surveyed) (hd' : dst'.Surveyed) (hsrc : src.outline = src'.outline)
    (hdst : dst.outline = dst'.outline) :
    (matching c src' dst').map Pairing.pairs =
        (matching c src dst).map
          (·.pairs.map (Prod.map (src.counterpart src') (dst.counterpart dst'))) ∧
      Script.between c src' dst' =
        (Script.between c src dst).map (·.rename (src.successor src') (dst.counterpart dst')) ∧
      (Script.between c src' dst').map (·.condense src' dst') =
        (Script.between c src dst).map fun x =>
          (x.condense src dst).rename (src.successor src') (dst.counterpart dst') := by
  have hsrc := Tree.renamed_of_outline_eq hs hs' hsrc
  have hdst := Tree.renamed_of_outline_eq hd hd' hdst
  have hleft : ∀ a b, src.SamePlace src' a b → src.counterpart src' a = b :=
    fun _ _ => hsrc.counterpart_eq
  have hright : ∀ a b, dst.SamePlace dst' a b → dst.counterpart dst' a = b :=
    fun _ _ => hdst.counterpart_eq
  have hwork : ∀ a b, Placed (src.SamePlace src') src.forest.size src'.forest.size a b →
      src.successor src' a = b := fun _ _ => hsrc.successor_eq
  have hscripts := lockstep_between (c := c) hsrc hdst
  refine ⟨?_, ?_, ?_⟩
  · exact ((lockstep_matching hsrc hdst).map_eq fun p p' hp => hp.rename_eq hleft hright).symm
  · have hplain := hscripts.map_eq (g := id) fun x y hxy => hxy.rename_eq hwork hright
    rw [hplain, Except.map_id]
    rfl
  · exact (hscripts.map_eq fun x y hxy => (hxy.condense hsrc hdst).rename_eq hwork hright).symm

def strayTwig (a b : Nat) : Tree :=
  let f := ((Tree.leaf { kind := .named b }).forest.alloc { kind := .named 9 }).2
  ⟨(f.alloc { kind := .named a }).2.place 3 1 0, 3, none⟩

theorem surveyed_strayTwig [TokenHash] (a b : Nat) : (strayTwig a b).measured.Surveyed := by
  have hf := (Tree.Sound.leaf { kind := .named b }).forest.alloc { kind := .named 9 }
  obtain ⟨hroot, hchild, hu⟩ :=
    (hf.alloc { kind := .named a }).linkable_iff.1 (hf.linkable_alloc (a := 1) _ rfl)
  exact Tree.Sound.surveyed ⟨(hf.alloc _).place hroot hchild hu 0, rfl, rfl⟩

attribute [local instance] TokenHash.constant

theorem diff_of_same_outlines_twigs :
    (twig 0 1).measured.Surveyed ∧ (strayTwig 0 1).measured.Surveyed ∧
      (twig 2 1).measured.Surveyed ∧ (strayTwig 2 1).measured.Surveyed ∧
      (twig 0 1).measured.outline = (strayTwig 0 1).measured.outline ∧
      (twig 2 1).measured.outline = (strayTwig 2 1).measured.outline ∧
      [1, 2, 3].map ((twig 0 1).measured.successor (strayTwig 0 1).measured) = [3, 1, 4] ∧
      (matching {} (strayTwig 0 1).measured (strayTwig 2 1).measured).map Pairing.pairs =
        (matching {} (twig 0 1).measured (twig 2 1).measured).map
          (·.pairs.map (Prod.map ((twig 0 1).measured.counterpart (strayTwig 0 1).measured)
            ((twig 2 1).measured.counterpart (strayTwig 2 1).measured))) ∧
      Script.between {} (strayTwig 0 1).measured (strayTwig 2 1).measured =
        (Script.between {} (twig 0 1).measured (twig 2 1).measured).map
          (·.rename ((twig 0 1).measured.successor (strayTwig 0 1).measured)
            ((twig 2 1).measured.counterpart (strayTwig 2 1).measured)) := by
  have hs := (sound_twig 0 1).surveyed
  have hd := (sound_twig 2 1).surveyed
  have hs' := surveyed_strayTwig 0 1
  have hd' := surveyed_strayTwig 2 1
  have hlaw := diff_of_same_outlines {} hs hs' hd hd' rfl rfl
  exact ⟨hs, hs', hd, hd', rfl, rfl, by decide, hlaw.1, hlaw.2.1⟩

end TreeDelta
