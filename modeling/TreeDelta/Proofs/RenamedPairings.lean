import TreeDelta.Matching.Config
import TreeDelta.Proofs.PairingRuns
import TreeDelta.Proofs.RenamedTrees

namespace TreeDelta

open Relator (BiUnique)

variable {r s : NodeId → NodeId → Prop}

namespace Pairing

variable {p p' : Pairing} {a a' b b' : NodeId}

structure Renamed (r s : NodeId → NodeId → Prop) (p p' : Pairing) : Prop where
  left : p.Sound
  right : p'.Sound
  pairs : List.Forall₂ (Both r s) p.pairs p'.pairs

theorem rel_partner {l l' : List (NodeId × NodeId)} (hl : List.Forall₂ (Both r s) l l')
    (hr : BiUnique r) (ha : r a a') {o o' : Option NodeId} (ho : ∀ x, o = some x ↔ (a, x) ∈ l)
    (ho' : ∀ y, o' = some y ↔ (a', y) ∈ l') : Option.Rel s o o' := by
  cases o with
  | none =>
      cases o' with
      | none => exact .none
      | some y =>
          obtain ⟨⟨x, z⟩, hz, hxy⟩ := forall₂_exists_of_mem hl.flip ((ho' y).1 rfl)
          obtain rfl : x = a := hr.1 hxy.1 ha
          cases (ho z).2 hz
  | some x =>
      obtain ⟨⟨z, y⟩, hz, hxy⟩ := forall₂_exists_of_mem hl ((ho x).1 rfl)
      obtain rfl : z = a' := hr.2 hxy.1 ha
      rw [(ho' y).2 hz]
      exact .some hxy.2

namespace Renamed

theorem image? (h : Renamed r s p p') (hr : BiUnique r) (ha : r a a') :
    Option.Rel s (p.image? a) (p'.image? a') :=
  rel_partner h.pairs hr ha (fun x => (h.left.mem_pairs a x).symm)
    fun y => (h.right.mem_pairs a' y).symm

theorem origin? (h : Renamed r s p p') (hs : BiUnique s) (hb : s b b') :
    Option.Rel r (p.origin? b) (p'.origin? b') := by
  have hswap : List.Forall₂ (Both s r) (p.pairs.map Prod.swap) (p'.pairs.map Prod.swap) :=
    List.rel_map (fun _ _ hx => ⟨hx.2, hx.1⟩) h.pairs
  refine rel_partner hswap hs hb (fun x => ?_) fun y => ?_
  · rw [← h.left.image_iff_origin, ← h.left.mem_pairs]
    simp
  · rw [← h.right.image_iff_origin, ← h.right.mem_pairs]
    simp

theorem srcPaired_eq (h : Renamed r s p p') (hr : BiUnique r) (ha : r a a') :
    p.srcPaired a = p'.srcPaired a' :=
  (h.image? hr ha).isSome_eq

theorem dstPaired_eq (h : Renamed r s p p') (hs : BiUnique s) (hb : s b b') :
    p.dstPaired b = p'.dstPaired b' :=
  (h.origin? hs hb).isSome_eq

theorem joins_eq (h : Renamed r s p p') (hr : BiUnique r) (hs : BiUnique s) (ha : r a a')
    (hb : s b b') : p.joins a b = p'.joins a' b' :=
  hs.beq_some_eq (h.image? hr ha) hb

theorem bothFree_eq (h : Renamed r s p p') (hr : BiUnique r) (hs : BiUnique s) (ha : r a a')
    (hb : s b b') : p.bothFree a b = p'.bothFree a' b' := by
  rw [bothFree, bothFree, h.srcPaired_eq hr ha, h.dstPaired_eq hs hb]

theorem add (h : Renamed r s p p') (hr : BiUnique r) (hs : BiUnique s) (ha : r a a')
    (hb : s b b') : Lockstep (Renamed r s) (p.add a b) (p'.add a' b') := by
  have hfree := h.bothFree_eq hr hs ha hb
  by_cases hp : p.bothFree a b
  · obtain ⟨q, hq⟩ := add_eq_ok_iff.2 (bothFree_iff.1 hp)
    obtain ⟨q', hq'⟩ := add_eq_ok_iff.2 (bothFree_iff.1 (hfree.symm.trans hp))
    rw [hq, hq']
    refine .ok ⟨h.left.add hq, h.right.add hq', ?_⟩
    rw [pairs_of_add hq, pairs_of_add hq']
    exact List.rel_append h.pairs (.cons ⟨ha, hb⟩ .nil)
  · rw [Pairing.add, Pairing.add, if_neg hp, if_neg (hfree ▸ hp)]
    exact .error _

theorem remove (h : Renamed r s p p') (hr : BiUnique r) (hs : BiUnique s) (ha : r a a')
    (hb : s b b') : Renamed r s (p.remove a b).2 (p'.remove a' b').2 := by
  refine ⟨h.left.remove a b, h.right.remove a' b', ?_⟩
  rw [pairs_remove, pairs_remove, h.joins_eq hr hs ha hb]
  split
  · exact h.pairs.filter fun x y hxy => (Both.biUnique hr hs).bne_eq hxy (Both.mk ha hb)
  · exact h.pairs

theorem mono {r' s' : NodeId → NodeId → Prop} (h : Renamed r s p p')
    (hr : ∀ a a', r a a' → r' a a') (hs : ∀ b b', s b b' → s' b b') : Renamed r' s' p p' :=
  ⟨h.left, h.right, h.pairs.imp fun _ _ hxy => ⟨hr _ _ hxy.1, hs _ _ hxy.2⟩⟩

theorem withCapacity (m n m' n' : Nat) :
    Renamed r s (Pairing.withCapacity m n) (Pairing.withCapacity m' n') :=
  ⟨.withCapacity m n, .withCapacity m' n', .nil⟩

end Renamed

end Pairing

section Questions

variable [TokenHash] {src src' dst dst' : Tree} {p p' : Pairing} {a a' b b' : NodeId}
  (hs : src.Renamed r src') (hd : dst.Renamed s dst') (hp : p.Renamed r s p')
include hs hd hp

namespace Pairing.Renamed

theorem allows_eq (ha : r a a') (hb : s b b') :
    p.allows src dst a b = p'.allows src' dst' a' b' := by
  rw [allows, allows, hs.kind_eq ha, hd.kind_eq hb, hp.bothFree_eq hs.unique hd.unique ha hb]

omit hd in
theorem hasFreeSrcChild_eq (ha : r a a') :
    p.hasFreeSrcChild src a = p'.hasFreeSrcChild src' a' :=
  bind_eq_bind (hs.children ha) fun _ _ hcs => congrArg pure <|
    hcs.any_eq fun _ _ hx => congrArg not (hp.srcPaired_eq hs.unique hx)

omit hs in
theorem hasFreeDstChild_eq (hb : s b b') :
    p.hasFreeDstChild dst b = p'.hasFreeDstChild dst' b' :=
  bind_eq_bind (hd.children hb) fun _ _ hcs => congrArg pure <|
    hcs.any_eq fun _ _ hx => congrArg not (hp.dstPaired_eq hd.unique hx)

theorem subtreesFree_eq (ha : r a a') (hb : s b b') :
    p.subtreesFree src dst a b = p'.subtreesFree src' dst' a' b' := by
  have hsrc : p.srcSubtreeFree src a = p'.srcSubtreeFree src' a' := by
    rw [srcSubtreeFree, srcSubtreeFree, hp.srcPaired_eq hs.unique ha]
    congr 1
    exact bind_eq_bind (hs.descendants ha) fun _ _ hds => congrArg pure <|
      hds.all_eq fun _ _ hx => congrArg not (hp.srcPaired_eq hs.unique hx)
  have hdst : p.dstSubtreeFree dst b = p'.dstSubtreeFree dst' b' := by
    rw [dstSubtreeFree, dstSubtreeFree, hp.dstPaired_eq hd.unique hb]
    congr 1
    exact bind_eq_bind (hd.descendants hb) fun _ _ hds => congrArg pure <|
      hds.all_eq fun _ _ hx => congrArg not (hp.dstPaired_eq hd.unique hx)
  rw [subtreesFree, subtreesFree, hsrc, hdst]

end Pairing.Renamed

theorem countBelow_eq_of_renamed (hb : s b b') {ds ds' : List NodeId}
    (hds : List.Forall₂ r ds ds') : countBelow dst p b ds = countBelow dst' p' b' ds' := by
  induction hds with
  | nil => rfl
  | cons hx _ ih =>
      rw [countBelow, countBelow]
      rcases (hp.image? hs.unique hx).cases with ⟨hnone, hnone'⟩ | ⟨y, y', hy, hy', hyy⟩
      · rw [hnone, hnone']
        exact ih
      · rw [hy, hy']
        dsimp only
        rw [hd.isBelow_eq hyy hb, ih]

theorem score_eq_of_renamed (m : Similarity) (ha : r a a') (hb : s b b') :
    m.score src dst p a b = m.score src' dst' p' a' b' := by
  have hcommon : commonDescendants src dst p a b = commonDescendants src' dst' p' a' b' :=
    bind_eq_bind (hs.descendants ha) fun _ _ hds => countBelow_eq_of_renamed hs hd hp hb hds
  rw [Similarity.score, Similarity.score, Similarity.subtreeShare, Similarity.subtreeShare, hcommon,
    hs.measure_eq ha, hd.measure_eq hb]

namespace Ranking

theorem siblingScore_eq_of_renamed (ha : r a a') (hb : s b b') :
    siblingScore src dst p a b = siblingScore src' dst' p' a' b' := by
  refine bind_eq_bind (hs.parent ha) fun o o' ho => ?_
  refine bind_eq_bind (hd.parent hb) fun q q' hq => ?_
  cases ho with
  | none => rfl
  | some hx =>
      cases hq with
      | none => rfl
      | some hy => exact score_eq_of_renamed hs hd hp .dice hx hy

theorem key_eq_of_renamed (ha : r a a') (hb : s b b') :
    key src dst p a b = key src' dst' p' a' b' := by
  rw [key, key, siblingScore_eq_of_renamed hs hd hp ha hb,
    Tree.ancestorScore_eq_of_renamed hs hd ha hb, hs.positionVector_eq ha, hd.positionVector_eq hb,
    Tree.spanDistance_eq_of_renamed hs hd ha hb, hs.measure_eq ha, hd.measure_eq hb]

theorem sort_of_renamed {pairs pairs' : List (NodeId × NodeId)}
    (h : List.Forall₂ (Both r s) pairs pairs') :
    Lockstep (List.Forall₂ (Both r s)) (sort src dst p pairs) (sort src' dst' p' pairs') := by
  have hkeyed : Lockstep (List.Forall₂ (Both (· = ·) (Both r s)))
      (pairs.mapM fun x => return (← key src dst p x.1 x.2, (x.1, x.2)))
      (pairs'.mapM fun x => return (← key src' dst' p' x.1 x.2, (x.1, x.2))) :=
    .mapM h fun x x' hx => .after (key_eq_of_renamed hs hd hp hx.1 hx.2) fun k => .pure ⟨rfl, hx⟩
  refine hkeyed.bind fun keyed keyed' hk => .pure ?_
  exact List.rel_map (fun _ _ hx => hx.2) (forall₂_mergeSort hk fun x y => (x.order y).isLE)

end Ranking

end Questions

/-- From pairings that correspond, both computations end in the same way, with related values and
pairings that correspond. -/
def InStep {α α' : Type} (r s : NodeId → NodeId → Prop) (out : α → α' → Prop) (m : Pairer α)
    (m' : Pairer α') : Prop :=
  ∀ p p', Pairing.Renamed r s p p' →
    Lockstep out (m.run p).1 (m'.run p').1 ∧ Pairing.Renamed r s (m.run p).2 (m'.run p').2

namespace InStep

variable {α α' β β' γ : Type} {out : α → α' → Prop} {next : β → β' → Prop} {m : Pairer α}
  {m' : Pairer α'} {k : α → Pairer β} {k' : α' → Pairer β'}

theorem pure {a : α} {a' : α'} (h : out a a') :
    InStep r s out (Pure.pure a : Pairer α) (Pure.pure a') :=
  fun _ _ hp => ⟨.ok h, hp⟩

theorem throw_bind (e : Fault) (k : α → Pairer β) (k' : α' → Pairer β') :
    InStep r s next (throw e >>= k) (throw e >>= k') :=
  fun _ _ hp => ⟨.error e, hp⟩

theorem bind (h : InStep r s out m m') (hk : ∀ a a', out a a' → InStep r s next (k a) (k' a')) :
    InStep r s next (m >>= k) (m' >>= k') := by
  intro p p' hp
  have hrun : ∀ {α β : Type} (m : Pairer α) (k : α → Pairer β) (p : Pairing),
      (m >>= k).run p = (ExceptT.bindCont k (m.run p).1).run (m.run p).2 := fun _ _ _ => rfl
  obtain ⟨hout, hq⟩ := h p p' hp
  rw [hrun, hrun]
  generalize m.run p = x at hout hq ⊢
  generalize m'.run p' = x' at hout hq ⊢
  obtain ⟨x, q⟩ := x
  obtain ⟨x', q'⟩ := x'
  cases hout with
  | error e => exact ⟨.error e, hq⟩
  | ok ha => exact hk _ _ ha q q' hq

theorem lift {x : Except Fault α} {x' : Except Fault α'} (h : Lockstep out x x') :
    InStep r s out (liftM x : Pairer α) (liftM x') := by
  intro p p' hp
  cases h with
  | ok ha => exact ⟨.ok ha, hp⟩
  | error e => exact ⟨.error e, hp⟩

theorem lift_bind {x : Except Fault α} {x' : Except Fault α'} (h : Lockstep out x x')
    (hk : ∀ a a', out a a' → InStep r s next (k a) (k' a')) :
    InStep r s next (liftM x >>= k) (liftM x' >>= k') :=
  (lift h).bind hk

theorem after {x x' : Except Fault γ} {k : γ → Pairer β} {k' : γ → Pairer β'} (h : x = x')
    (hk : ∀ c, InStep r s next (k c) (k' c)) :
    InStep r s next (liftM x >>= k) (liftM x' >>= k') := by
  have hstep : Lockstep (· = ·) x x' := by
    subst h
    cases x with
    | ok c => exact .ok rfl
    | error e => exact .error e
  refine lift_bind hstep ?_
  rintro c _ rfl
  exact hk c

theorem get {k : Pairing → Pairer β} {k' : Pairing → Pairer β'}
    (h : ∀ p p', Pairing.Renamed r s p p' → InStep r s next (k p) (k' p')) :
    InStep r s next (get >>= k) (get >>= k') :=
  fun p p' hp => h p p' hp p p' hp

theorem remove (hr : BiUnique r) (hs : BiUnique s) {a a' b b' : NodeId} (ha : r a a')
    (hb : s b b') : InStep r s (fun _ _ => True)
      (modify fun p => (p.remove a b).2 : Pairer Unit) (modify fun p => (p.remove a' b').2) :=
  fun _ _ hp => ⟨.ok trivial, hp.remove hr hs ha hb⟩

theorem add (hr : BiUnique r) (hs : BiUnique s) {a a' b b' : NodeId} (ha : r a a') (hb : s b b') :
    InStep r s (fun _ _ => True) (Pairer.add a b) (Pairer.add a' b') := by
  intro p p' hp
  have hadd := hp.add hr hs ha hb
  rw [Pairer.run_add, Pairer.run_add]
  generalize p.add a b = x at hadd ⊢
  generalize p'.add a' b' = x' at hadd ⊢
  cases hadd with
  | ok hq => exact ⟨.ok trivial, hq⟩
  | error e => exact ⟨.error e, hp⟩

end InStep

section Subtrees

variable [TokenHash] {src src' dst dst' : Tree} (hs : src.Renamed r src') (hd : dst.Renamed s dst')
include hs hd

theorem inStep_addRose {t t' u u' : Rose NodeId} (ht : t.Related r t') (hu : u.Related s u') :
    InStep r s (fun _ _ => True) (Pairer.addRose src.kind dst.kind t u) (Pairer.addRose src'.kind dst'.kind t' u') := by
  induction t using Rose.induct generalizing t' u u' with
  | node a as ih =>
      obtain ⟨a', as'⟩ := t'
      obtain ⟨b, bs⟩ := u
      obtain ⟨b', bs'⟩ := u'
      obtain ⟨ha, has⟩ := Rose.related_node.1 ht
      obtain ⟨hb, hbs⟩ := Rose.related_node.1 hu
      have hroses : InStep r s (fun _ _ => True) (Pairer.addRoses src.kind dst.kind as bs)
          (Pairer.addRoses src'.kind dst'.kind as' bs') := by
        clear ht hu
        induction has generalizing bs bs' with
        | nil => exact .pure trivial
        | @cons c c' cs cs' hc _ ihs =>
            cases hbs with
            | nil => exact .pure trivial
            | cons hd' hbs =>
                rw [Pairer.addRoses, Pairer.addRoses]
                refine (ih c (by simp) hc hd').bind fun _ _ _ => ?_
                exact ihs (fun e he => ih e (by simp [he])) _ _ hbs
      rw [Pairer.addRose, Pairer.addRose]
      refine .after (hs.kind_eq ha) fun ka => .after (hd.kind_eq hb) fun kb => ?_
      have hadd : InStep r s (fun _ _ => True) (Pairer.add a b) (Pairer.add a' b') :=
        .add hs.unique hd.unique ha hb
      rw [has.length_eq, hbs.length_eq]
      dsimp only
      split
      · exact .throw_bind _ _ _
      · refine hadd.bind fun _ _ _ => ?_
        split
        · exact .throw_bind _ _ _
        · exact hroses

theorem inStep_addSubtrees {a a' b b' : NodeId} (ha : r a a') (hb : s b b') :
    InStep r s (fun _ _ => True) (Pairer.addSubtrees src dst a b)
      (Pairer.addSubtrees src' dst' a' b') :=
  inStep_addRose hs hd (hs.forest.subtree ha) (hd.forest.subtree hb)

end Subtrees

end TreeDelta
