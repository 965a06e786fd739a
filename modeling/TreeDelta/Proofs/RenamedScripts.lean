import TreeDelta.Proofs.RenamedDrafts
import TreeDelta.Script.Condense

namespace TreeDelta

open Relator (BiUnique)

variable {r s w : NodeId → NodeId → Prop} {t u src src' dst dst' : Tree}

/-- Nodes of working copies of forests with `n` and `n'` nodes: old ones at one place, or new ones
created at the same time. -/
inductive Placed (r : NodeId → NodeId → Prop) (n n' : Nat) : NodeId → NodeId → Prop where
  | old {a b : NodeId} (h : r a b) : Placed r n n' a b
  | new (k : Nat) : Placed r n n' (n + k + 1) (n' + k + 1)

theorem Placed.biUnique {n n' : Nat} (hr : BiUnique r) (hle : ∀ a b : Nat, r a b → a ≤ n ∧ b ≤ n') :
    BiUnique (Placed r n n') := by
  constructor
  · rintro a b c (hac | k) hbc
    · cases hbc with
      | old hbc => exact hr.1 hac hbc
      | new k => exact absurd (hle _ _ hac).2 (by omega)
    · generalize hd : n' + k + 1 = d at hbc
      cases hbc with
      | old hbc => exact absurd (hle _ _ hbc).2 (by omega)
      | new j =>
          obtain rfl : k = j := by omega
          rfl
  · rintro a b c (hab | k) hac
    · cases hac with
      | old hac => exact hr.2 hab hac
      | new k => exact absurd (hle _ _ hab).1 (by omega)
    · generalize hd : n + k + 1 = d at hac
      cases hac with
      | old hac => exact absurd (hle _ _ hac).1 (by omega)
      | new j =>
          obtain rfl : k = j := by omega
          rfl

namespace Tree.Renamed

variable [TokenHash]

theorem le_size (h : t.Renamed r u) (a b : Nat) (hab : r a b) :
    a ≤ t.forest.size ∧ b ≤ u.forest.size :=
  ⟨((t.forest.has_iff_le a).1 (h.left.has (h.reaches hab).1)).2,
    ((u.forest.has_iff_le b).1 (h.right.has (h.reaches hab).2)).2⟩

theorem placed (h : t.Renamed r u) :
    t.forest.Renamed (Placed r t.forest.size u.forest.size) u.forest := by
  have hnone : ∀ (f : Forest) (k : Nat), ¬ f.has (f.size + k + 1) := by
    intro f k hhas
    have hle := ((f.has_iff_le _).1 hhas).2
    omega
  refine ⟨h.forest.left, h.forest.right, Placed.biUnique h.unique h.le_size, ?_, ?_, ?_, ?_⟩
  · rintro _ _ (hab | k)
    · exact h.forest.has_iff hab
    · exact iff_of_false (hnone _ k) (hnone _ k)
  · rintro _ _ (hab | k)
    · exact (h.forest.parent hab).mono fun _ _ => .old
    · rw [Forest.parent?_eq_none (hnone _ k), Forest.parent?_eq_none (hnone _ k)]
      exact .none
  · rintro _ _ (hab | k)
    · exact (h.forest.children hab).imp fun _ _ => .old
    · rw [Forest.childrenOf_eq_nil (hnone _ k), Forest.childrenOf_eq_nil (hnone _ k)]
      exact .nil
  · rintro _ _ (hab | k)
    · exact h.forest.content hab
    · rw [Forest.contentOf, Option.not_isSome_iff_eq_none.1 (hnone _ k), Forest.contentOf,
        Option.not_isSome_iff_eq_none.1 (hnone _ k)]

theorem underTop (h : t.Renamed r u) :
    (t.forest.underTop t.root).2.Renamed (Placed r t.forest.size u.forest.size)
      (u.forest.underTop u.root).2 := by
  have htop : Placed r t.forest.size u.forest.size (t.forest.size + 1) (u.forest.size + 1) :=
    .new 0
  exact (h.placed.alloc htop rfl).place htop (.old h.root)
    (h.forest.left.linkable_alloc _ h.left.sound.has_root) 0

end Tree.Renamed

structure Script.Renamed (w s : NodeId → NodeId → Prop) (x y : Script) : Prop where
  actions : List.Forall₂ (Action.Renamed w s) x.actions y.actions
  top : w x.top y.top

theorem Script.lockstep_ofPairing [TokenHash] (hs : src.Renamed r src') (hd : dst.Renamed s dst')
    {p p' : Pairing} (hp : p.Renamed r s p') :
    Lockstep (Script.Renamed (Placed r src.forest.size src'.forest.size) s)
      (Script.ofPairing src dst p) (Script.ofPairing src' dst' p') := by
  have htask : Draft.Task.Renamed (Placed r src.forest.size src'.forest.size) s src.forest.size
      src'.forest.size ⟨dst, (src.forest.underTop src.root).1, fun a _ => a⟩
      ⟨dst', (src'.forest.underTop src'.root).1, fun a _ => a⟩ :=
    ⟨hd, .new 0, fun _ _ => rfl, fun _ _ => rfl, .new⟩
  have hsize : ∀ t : Tree, (t.forest.underTop t.root).2.size = t.forest.size + 1 := fun t => by
    simp [Forest.underTop]
  have hstart : Draft.Renamed (Placed r src.forest.size src'.forest.size) s src.forest.size
      src'.forest.size { work := (src.forest.underTop src.root).2, pairing := p }
      { work := (src'.forest.underTop src'.root).2, pairing := p' } :=
    ⟨hs.underTop, ⟨1, hsize src, hsize src'⟩, hp.mono (fun _ _ => .old) fun _ _ h => h,
      .empty, .nil⟩
  simp only [Script.ofPairing, Draft.run, bind_assoc, pure_bind]
  refine (hstart.visitAll htask hd.breadthFirst).bind fun d d' h => .pure ⟨?_, htask.top⟩
  exact List.rel_append h.journal (List.rel_map (fun _ _ ha => .delete ha) (h.leftovers htask))

theorem sameMembers_markedThroughout (h : t.forest.Renamed w u.forest)
    (hpost : List.Forall₂ w t.postorder u.postorder) {marked marked' : Std.HashSet NodeId}
    (hmarked : SameMembers w marked marked') :
    SameMembers w (markedThroughout t marked) (markedThroughout u marked') := by
  have hfold : ∀ {l l' : List NodeId} {full full' : Std.HashSet NodeId}, List.Forall₂ w l l' →
      SameMembers w full full' →
      SameMembers w
        (l.foldl (fun full id => if marked.contains id && (t.forest.childrenOf id).all full.contains
          then full.insert id else full) full)
        (l'.foldl (fun full id => if marked'.contains id && (u.forest.childrenOf id).all
          full.contains then full.insert id else full) full') := by
    intro l l' full full' hl hfull
    induction hl generalizing full full' with
    | nil => exact hfull
    | @cons a b _ _ hab _ ih =>
        rw [List.foldl_cons, List.foldl_cons, hmarked a b hab, (h.children hab).all_eq hfull]
        apply ih
        split
        · exact hfull.insert h.unique hab
        · exact hfull
  exact hfold hpost .empty

namespace Script.Renamed

variable {x y : Script}

theorem inserted (h : Script.Renamed w s x y) (hs : BiUnique s) :
    SameMembers s x.inserted y.inserted := by
  refine .ofList hs (List.rel_filterMap (fun a b hab => ?_) h.actions)
  cases hab with
  | insert _ hx => exact .some hx
  | _ => exact .none

theorem deleted (h : Script.Renamed w s x y) (hw : BiUnique w) :
    SameMembers w x.deleted y.deleted := by
  refine .ofList hw (List.rel_filterMap (fun a b hab => ?_) h.actions)
  cases hab with
  | delete hnode => exact .some hnode
  | _ => exact .none

end Script.Renamed

theorem Script.rel_condenseAt (h : t.forest.Renamed r u.forest)
    {full full' : Std.HashSet NodeId} (hfull : SameMembers r full full') {a b : NodeId}
    (hab : r a b) {single single' whole whole' : Action}
    (hsingle : Action.Renamed w s single single') (hwhole : Action.Renamed w s whole whole') :
    Option.Rel (Action.Renamed w s) (condenseAt t full a single whole)
      (condenseAt u full' b single' whole') := by
  rw [condenseAt, condenseAt, (h.parent hab).any_eq hfull, (h.children hab).isEmpty_eq]
  split
  · exact .none
  · split
    · exact .some hsingle
    · exact .some hwhole

theorem Script.Renamed.condense [TokenHash] {x y : Script} (hs : src.Renamed r src')
    (hd : dst.Renamed s dst')
    (h : Script.Renamed (Placed r src.forest.size src'.forest.size) s x y) :
    Script.Renamed (Placed r src.forest.size src'.forest.size) s (x.condense src dst)
      (y.condense src' dst') := by
  have hpost : List.Forall₂ (Placed r src.forest.size src'.forest.size) src.postorder
      src'.postorder := hs.postorder.imp fun _ _ => .old
  have hadded := sameMembers_markedThroughout hd.forest hd.postorder (h.inserted hd.unique)
  have hremoved := sameMembers_markedThroughout hs.placed hpost (h.deleted hs.placed.unique)
  refine ⟨List.rel_filterMap (fun a b hab => ?_) h.actions, h.top⟩
  cases hab with
  | insert hnode hx hparent position kind label =>
      rw [condenseAction, condenseAction, hadded _ _ hx]
      split
      · exact rel_condenseAt hd.forest hadded hx (.insert hnode hx hparent position kind label)
          (.insertTree hnode hx hparent position)
      · exact .some (.insert hnode hx hparent position kind label)
  | delete hnode =>
      rw [condenseAction, condenseAction, hremoved _ _ hnode]
      split
      · exact rel_condenseAt hs.placed hremoved hnode (.delete hnode) (.deleteTree hnode)
      · exact .some (.delete hnode)
  | insertTree hnode hx hparent position => exact .some (.insertTree hnode hx hparent position)
  | deleteTree hnode => exact .some (.deleteTree hnode)
  | update hnode hx old new retype => exact .some (.update hnode hx old new retype)
  | move hnode hx hparent position => exact .some (.move hnode hx hparent position)

end TreeDelta
