import TreeDelta.Proofs.DraftRun

namespace TreeDelta

namespace Draft

variable {ε δ : Type} (g : ε → δ) (t : Task ε) (d : Draft ε) (w x z : NodeId)

def mapJournal (d : Draft ε) : Draft δ := ⟨d.work, d.pairing, d.inOrder, d.journal.map g⟩

def Task.mapEntry (t : Task ε) : Task δ := ⟨t.dst, t.top, fun a work => g (t.entry a work)⟩

theorem record_mapJournal (work : Forest) (a : Action) :
    (d.mapJournal g).record (t.mapEntry g) work a = (d.record t work a).mapJournal g := by
  simp only [record, mapJournal, Task.mapEntry, Array.map_push]

theorem insert_mapJournal :
    (d.mapJournal g).insert (t.mapEntry g) x z =
      Prod.map id (mapJournal g) <$> d.insert t x z := by
  simp only [insert, map_bind, map_pure, Prod.map_apply, id_eq, ← record_mapJournal]
  rfl

theorem update_mapJournal :
    (d.mapJournal g).update (t.mapEntry g) w x = mapJournal g <$> d.update t w x := by
  simp only [update, map_bind, apply_ite (mapJournal g <$> ·), map_pure, ← record_mapJournal]
  rfl

theorem relocate_mapJournal :
    (d.mapJournal g).relocate (t.mapEntry g) w x z = mapJournal g <$> d.relocate t w x z := by
  simp only [relocate, map_bind, map_pure, ← record_mapJournal]
  rfl

theorem bring_mapJournal :
    (d.mapJournal g).bring (t.mapEntry g) x = Prod.map id (mapJournal g) <$> d.bring t x := by
  have hpairing : (d.mapJournal g).pairing = d.pairing := rfl
  rw [bring, bring, map_bind, hpairing]
  refine bind_congr fun z => ?_
  cases d.pairing.origin? x with
  | none => exact insert_mapJournal g t d x z
  | some w =>
      simp only [update_mapJournal, relocate_mapJournal, map_bind, bind_map_left, map_pure,
        apply_ite (Prod.map id (mapJournal g) <$> ·)]
      rfl

theorem moveStray_mapJournal (strays : List NodeId) :
    moveStray (t.mapEntry g) w (d.mapJournal g) strays =
      mapJournal g <$> moveStray t w d strays := by
  induction strays generalizing d with
  | nil => rfl
  | cons a strays ih =>
      have hpairing : (d.mapJournal g).pairing = d.pairing := rfl
      rw [moveStray, moveStray, hpairing]
      cases d.pairing.image? a with
      | none => exact ih d
      | some b =>
          simp only [map_bind, ← ih]
          refine bind_congr fun k => bind_congr fun work => ?_
          exact congrArg (fun e => moveStray (t.mapEntry g) w (e.settle b) strays)
            (record_mapJournal g t { d with work := d.work.detach a } work (.move a b w k))

theorem orderChildren_mapJournal :
    (d.mapJournal g).orderChildren (t.mapEntry g) w x = mapJournal g <$> d.orderChildren t w x := by
  simp only [orderChildren, map_bind, ← moveStray_mapJournal]
  rfl

theorem visit_mapJournal :
    (d.mapJournal g).visit (t.mapEntry g) x = mapJournal g <$> d.visit t x := by
  simp only [visit, bring_mapJournal, map_bind, bind_map_left, ← orderChildren_mapJournal]
  rfl

theorem visitAll_mapJournal (xs : List NodeId) :
    visitAll (t.mapEntry g) (d.mapJournal g) xs = mapJournal g <$> visitAll t d xs := by
  induction xs generalizing d with
  | nil => rfl
  | cons x xs ih =>
      rw [visitAll, visitAll, visit_mapJournal, bind_map_left, map_bind]
      exact bind_congr fun d' => ih d'

theorem run_mapJournal (src dst : Tree) (p : Pairing) (entry : Action → Forest → ε) :
    run src dst p (fun a work => g (entry a work)) =
      Prod.map (Task.mapEntry g) (mapJournal g) <$> run src dst p entry := by
  have hstart : (start src p).mapJournal g = start src p := by simp [mapJournal, start]
  set t : Task ε := ⟨dst, (src.forest.underTop src.root).1, entry⟩
  have hvisits := visitAll_mapJournal g t (start src p) dst.breadthFirst
  rw [hstart] at hvisits
  simp only [run, map_bind, map_pure]
  change (visitAll (t.mapEntry g) (start src p) dst.breadthFirst >>= _) = _
  rw [hvisits, bind_map_left]
  rfl

def deletions (f : Forest) : List NodeId → List (Action × Forest)
  | [] => []
  | n :: l => (.delete n, f.detach n) :: deletions (f.detach n) l

theorem map_fst_deletions (f : Forest) (l : List NodeId) :
    (deletions f l).map Prod.fst = l.map .delete := by
  induction l generalizing f with
  | nil => rfl
  | cons n l ih => exact congrArg (Action.delete n :: ·) (ih (f.detach n))

/-- The whole script, each action with the working copy right after it. The nodes that are left
over are taken out of the last working copy one by one. -/
def trace (t : Task (Action × Forest)) (d : Draft (Action × Forest)) : List (Action × Forest) :=
  d.journal.toList ++ deletions d.work (d.leftovers t)

/-- The actions of a script are those of the draft that keeps its working copies. -/
theorem ofPairing_of_run {src dst : Tree} {p : Pairing} {t : Task (Action × Forest)}
    {d : Draft (Action × Forest)} (h : run src dst p Prod.mk = .ok (t, d)) :
    Script.ofPairing src dst p = .ok ⟨(d.trace t).map Prod.fst, t.top⟩ := by
  have hrun : run src dst p (fun a _ => a) =
      Prod.map (Task.mapEntry Prod.fst) (mapJournal Prod.fst) <$> run src dst p Prod.mk :=
    run_mapJournal Prod.fst src dst p Prod.mk
  have hactions : (d.mapJournal Prod.fst).journal.toList ++
      ((d.mapJournal Prod.fst).leftovers (t.mapEntry Prod.fst)).map .delete =
        (d.trace t).map Prod.fst := by
    rw [trace, List.map_append, map_fst_deletions, mapJournal, Array.toList_map]
    rfl
  rw [Script.ofPairing, hrun, h, ← hactions]
  rfl

end Draft

end TreeDelta
