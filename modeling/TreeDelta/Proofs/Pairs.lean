import Mathlib.Data.List.Nodup
import Mathlib.Data.Set.Function
import TreeDelta.Pairing
import TreeDelta.Proofs.Relinking

namespace TreeDelta

/-- The links fit together and the root has no parent. Nodes that the root does not reach may
hang anywhere else in the forest. -/
structure Tree.Sound (t : Tree) : Prop where
  forest : t.forest.Sound
  has_root : t.forest.has t.root
  root_parent : t.forest.parent? t.root = none

namespace Tree

abbrev Reaches (t : Tree) (a : NodeId) : Prop := t.forest.Under t.root a

theorem Sound.has_of_reaches {t : Tree} (h : t.Sound) {a : NodeId} (ha : t.Reaches a) :
    t.forest.has a :=
  h.forest.has_of_under ha h.has_root

theorem Sound.mem_preorder_iff {t : Tree} (h : t.Sound) {a : NodeId} :
    a ∈ t.preorder ↔ t.Reaches a :=
  h.forest.mem_preorder_iff

theorem Sound.reaches_parent {t : Tree} (h : t.Sound) {a p : NodeId} (ha : t.Reaches a)
    (hp : t.forest.parent? a = some p) : t.Reaches p := by
  rcases ha.cases_tail with rfl | ⟨q, hq, hqa⟩
  · rw [h.root_parent] at hp
    cases hp
  · exact Option.some.inj (hqa.symm.trans hp) ▸ hq

theorem Sound.eq_root {t : Tree} (_ : t.Sound) {a : NodeId} (ha : t.Reaches a)
    (hp : t.forest.parent? a = none) : a = t.root := by
  rcases ha.cases_tail with rfl | ⟨q, _, hqa⟩
  · rfl
  · rw [hp] at hqa
    cases hqa

theorem Sound.root_notMem_children {t : Tree} (h : t.Sound) (a : NodeId) :
    t.root ∉ t.forest.childrenOf a := by
  rw [h.forest.mem_children, h.root_parent]
  exact nofun

theorem Sound.leaf (info : NodeInfo) : (Tree.leaf info).Sound := by
  have hempty : Forest.empty.Sound := by
    have hget : ∀ j, Forest.empty.get? j = none := by
      intro j
      cases j <;> simp [Forest.empty, Forest.get?]
    refine ⟨fun p c => ?_, fun p => ?_, fun a => ?_⟩
    · simp [Forest.childrenOf, Forest.parent?, hget]
    · simp [Forest.childrenOf, hget]
    · rw [Forest.ancestors_eq_nil (by simp [Forest.parent?, hget])]
      simp
  exact ⟨hempty.alloc info, rfl, rfl⟩

theorem Sound.addChild {t : Tree} (h : t.Sound) (parent : NodeId) (info : NodeInfo) :
    (t.addChild parent info).2.Sound := by
  have hroot := (t.forest.has_alloc_iff info t.root).2 (.inr h.has_root)
  have hne : t.forest.size + 1 ≠ t.root := by
    intro he
    exact t.forest.not_has_succ_size (he ▸ h.has_root)
  have hlinks := h.forest.alloc info
  simp only [Tree.addChild, Forest.append, Forest.insertAt]
  by_cases hl : (t.forest.alloc info).2.linkable parent (t.forest.alloc info).1
  · rw [if_pos hl]
    obtain ⟨hp, hc, hu⟩ := hlinks.linkable_iff.1 hl
    refine ⟨hlinks.place hp hc hu _, (Forest.has_congr (Forest.size_place _ _ _ _) _).2 hroot, ?_⟩
    exact (Forest.parent?_place _ _ hc _ _).trans ((if_neg hne).trans
      ((Forest.parent?_alloc _ _ _).trans h.root_parent))
  · rw [if_neg hl]
    exact ⟨hlinks, hroot, (Forest.parent?_alloc _ _ _).trans h.root_parent⟩

theorem Sound.edit {t : Tree} (h : t.Sound) (id : NodeId) (g : NodeInfo → NodeInfo) :
    (t.edit id g).2.Sound := by
  unfold Tree.edit
  split
  · exact ⟨h.forest.modify_info id g, (Forest.has_congr (Forest.size_modify _ _ _) _).2 h.has_root,
      (Forest.parent?_modify_info _ id g _).trans h.root_parent⟩
  · exact ⟨h.forest, h.has_root, h.root_parent⟩

theorem Sound.measured [TokenHash] {t : Tree} (h : t.Sound) : t.measured.Sound :=
  ⟨h.forest, h.has_root, h.root_parent⟩

theorem parent_eq_ok {t : Tree} {a : NodeId} (h : t.forest.has a) :
    t.parent a = .ok (t.forest.parent? a) := by
  rw [parent, Forest.node_eq_ok h]; rfl

theorem children_eq_ok {t : Tree} {a : NodeId} (h : t.forest.has a) :
    t.children a = .ok (t.forest.childrenOf a) := by
  rw [children, Forest.node_eq_ok h]; rfl

theorem info_eq_ok {t : Tree} {a : NodeId} (h : t.forest.has a) :
    t.info a = .ok (t.forest.infoOf a) := by
  rw [info, Forest.node_eq_ok h]; rfl

theorem kind_eq_ok {t : Tree} {a : NodeId} (h : t.forest.has a) :
    t.kind a = .ok (t.forest.contentOf a).kind := by
  rw [kind, info_eq_ok h, Forest.contentOf_eq]; rfl

theorem subtree_eq_ok {t : Tree} {a : NodeId} (h : t.forest.has a) :
    t.subtree a = .ok (t.forest.subtree a) := by
  rw [subtree, Forest.node_eq_ok h]; rfl

theorem descendants_eq_ok {t : Tree} {a : NodeId} (h : t.forest.has a) :
    t.descendants a = .ok (t.forest.subtree a).descendants := by
  rw [descendants, subtree_eq_ok h]; rfl

theorem ancestors_eq_ok {t : Tree} {a : NodeId} (h : t.forest.has a) :
    t.ancestors a = .ok (t.forest.ancestors a) := by
  rw [ancestors, Forest.node_eq_ok h]; rfl

end Tree

def twig (a b : Nat) : Tree := ((Tree.leaf { kind := .named a }).addChild 1 { kind := .named b }).2

theorem sound_twig (a b : Nat) : (twig a b).Sound := (Tree.Sound.leaf _).addChild 1 _

theorem reaches_twig (a b : Nat) : (twig a b).Reaches 1 ∧ (twig a b).Reaches 2 :=
  ⟨.refl, .single rfl⟩

namespace Pairing

/-- Both look-ups and the list of pairs tell of the same one-to-one relation. -/
structure Sound (p : Pairing) : Prop where
  image_iff_origin : ∀ a b, p.image? a = some b ↔ p.origin? b = some a
  mem_pairs : ∀ a b, (a, b) ∈ p.pairs ↔ p.image? a = some b
  nodup_pairs : p.pairs.Nodup

/-- Only nodes that the two roots reach are paired. -/
def Within (p : Pairing) (src dst : Tree) : Prop :=
  ∀ a b, p.image? a = some b → src.Reaches a ∧ dst.Reaches b

section Slotted

open Slotted (slot)

variable {ι : Type} [Slotted ι] {p q : Pairing ι} {a b : ι} {S D : Set ι}

theorem bothFree_iff : p.bothFree a b ↔ p.image? a = none ∧ p.origin? b = none := by
  simp [bothFree, srcPaired, dstPaired]

theorem add_eq_ok_iff : (∃ q, p.add a b = .ok q) ↔ p.image? a = none ∧ p.origin? b = none := by
  rw [← bothFree_iff, add]
  split <;> simp [*]

theorem free_of_add (h : p.add a b = .ok q) : p.image? a = none ∧ p.origin? b = none :=
  add_eq_ok_iff.1 ⟨q, h⟩

/-- Among the source identifiers `S` and the destination identifiers `D`, both look-ups and the
list of pairs tell of the same relation, and nothing else is listed. -/
structure SoundOn (S D : Set ι) (p : Pairing ι) : Prop where
  mem_of_pairs : ∀ x ∈ p.pairs, x.1 ∈ S ∧ x.2 ∈ D
  mem_iff_image : ∀ a ∈ S, ∀ b, (a, b) ∈ p.pairs ↔ p.image? a = some b
  mem_iff_origin : ∀ b ∈ D, ∀ a, (a, b) ∈ p.pairs ↔ p.origin? b = some a
  nodup_pairs : p.pairs.Nodup

namespace SoundOn

theorem withCapacity (S D : Set ι) (n m : Nat) : (Pairing.withCapacity n m).SoundOn S D := by
  constructor <;> simp [image?, origin?, pairs, Pairing.withCapacity]

theorem empty (S D : Set ι) : Pairing.empty.SoundOn S D := by
  constructor <;> simp [image?, origin?, pairs, Pairing.empty]

theorem add (h : p.SoundOn S D) (hS : S.InjOn slot) (hD : D.InjOn slot) (ha : a ∈ S) (hb : b ∈ D)
    (hadd : p.add a b = .ok q) : q.SoundOn S D := by
  obtain ⟨hfreea, hfreeb⟩ := free_of_add hadd
  constructor
  case mem_of_pairs =>
    rw [pairs_of_add hadd, List.forall_mem_append, List.forall_mem_singleton]
    exact ⟨h.mem_of_pairs, ha, hb⟩
  case mem_iff_image =>
    intro x hx y
    rw [pairs_of_add hadd, slot_image?_of_add hadd, List.mem_append, h.mem_iff_image x hx]
    by_cases hslot : slot a = slot x
    · obtain rfl := hS ha hx hslot
      simp [hfreea, eq_comm]
    · have hne : x ≠ a := fun he => hslot (he ▸ rfl)
      simp [hslot, hne]
  case mem_iff_origin =>
    intro y hy x
    rw [pairs_of_add hadd, slot_origin?_of_add hadd, List.mem_append, h.mem_iff_origin y hy]
    by_cases hslot : slot b = slot y
    · obtain rfl := hD hb hy hslot
      simp [hfreeb, eq_comm]
    · have hne : y ≠ b := fun he => hslot (he ▸ rfl)
      simp [hslot, hne]
  case nodup_pairs =>
    rw [pairs_of_add hadd, List.nodup_append_comm, List.singleton_append, List.nodup_cons]
    exact ⟨fun hm => by simp [(h.mem_iff_image a ha b).1 hm] at hfreea, h.nodup_pairs⟩

end SoundOn

variable [DecidableEq ι]

theorem joins_iff : p.joins a b ↔ p.image? a = some b := by simp [joins]

theorem SoundOn.remove (h : p.SoundOn S D) (hS : S.InjOn slot) (hD : D.InjOn slot) (ha : a ∈ S) (b : ι) :
    (p.remove a b).2.SoundOn S D := by
  by_cases hj : p.joins a b
  · have hlisted := (h.mem_iff_image a ha b).2 (joins_iff.1 hj)
    have hb := (h.mem_of_pairs _ hlisted).2
    have hpairs : (p.remove a b).2.pairs = p.pairs.filter (· != (a, b)) := by
      rw [pairs_remove, if_pos hj]
    constructor
    case mem_of_pairs =>
      rw [hpairs]
      exact fun x hx => h.mem_of_pairs x (List.mem_of_mem_filter hx)
    case mem_iff_image =>
      intro x hx y
      rw [hpairs, image?_remove, List.mem_filter, h.mem_iff_image x hx]
      by_cases hslot : slot a = slot x
      · obtain rfl := hS ha hx hslot
        rw [if_pos ⟨hj, rfl⟩, joins_iff.1 hj]
        simp +contextual
      · have hne : x ≠ a := fun he => hslot (he ▸ rfl)
        simp [hslot, hne]
    case mem_iff_origin =>
      intro y hy x
      rw [hpairs, origin?_remove, List.mem_filter, h.mem_iff_origin y hy]
      by_cases hslot : slot b = slot y
      · obtain rfl := hD hb hy hslot
        rw [if_pos ⟨hj, rfl⟩, (h.mem_iff_origin b hb a).1 hlisted]
        simp +contextual
      · have hne : y ≠ b := fun he => hslot (he ▸ rfl)
        simp [hslot, hne]
    case nodup_pairs =>
      rw [hpairs]
      exact h.nodup_pairs.filter _
  · have hsame : (p.remove a b).2 = p := by simp [Pairing.remove, hj]
    rw [hsame]
    exact h

end Slotted

variable {p q : Pairing} {a b : NodeId}

/-- Where every slot has only one identifier nothing need be left out. -/
theorem sound_iff : p.Sound ↔ p.SoundOn .univ .univ := by
  constructor
  · intro h
    refine ⟨fun _ _ => ⟨trivial, trivial⟩, fun a _ b => h.mem_pairs a b, fun b _ a => ?_,
      h.nodup_pairs⟩
    exact (h.mem_pairs a b).trans (h.image_iff_origin a b)
  · intro h
    refine ⟨fun a b => ?_, fun a b => h.mem_iff_image a trivial b, h.nodup_pairs⟩
    exact (h.mem_iff_image a trivial b).symm.trans (h.mem_iff_origin b trivial a)

theorem injOn_slot (S : Set NodeId) : S.InjOn Slotted.slot := fun _ _ _ _ h => h

namespace Sound

theorem withCapacity (n m : Nat) : (Pairing.withCapacity n m).Sound :=
  sound_iff.2 (.withCapacity _ _ n m)

theorem empty : Pairing.empty.Sound := sound_iff.2 (.empty _ _)

theorem image_inj (h : p.Sound) {a' : NodeId} (ha : p.image? a = some b)
    (ha' : p.image? a' = some b) : a = a' := by
  rw [h.image_iff_origin] at ha ha'
  exact Option.some.inj (ha.symm.trans ha')

theorem add (h : p.Sound) (hadd : p.add a b = .ok q) : q.Sound :=
  sound_iff.2 ((sound_iff.1 h).add (injOn_slot _) (injOn_slot _) trivial trivial hadd)

theorem remove (h : p.Sound) (a b : NodeId) : (p.remove a b).2.Sound :=
  sound_iff.2 ((sound_iff.1 h).remove (injOn_slot _) (injOn_slot _) trivial b)

theorem addAll (h : p.Sound) {l : List (NodeId × NodeId)} (hfst : (l.map Prod.fst).Nodup)
    (hsnd : (l.map Prod.snd).Nodup)
    (hfree : ∀ x ∈ l, p.image? x.1 = none ∧ p.origin? x.2 = none) :
    ∃ q, p.addAll l = .ok q ∧ q.Sound ∧ q.pairs = p.pairs ++ l := by
  induction l generalizing p with
  | nil => exact ⟨p, rfl, h, by simp⟩
  | cons x l ih =>
      obtain ⟨a, b⟩ := x
      rw [List.map_cons, List.nodup_cons] at hfst hsnd
      obtain ⟨r, hr⟩ := add_eq_ok_iff.2 (hfree (a, b) (by simp))
      have hrest : ∀ y ∈ l, r.image? y.1 = none ∧ r.origin? y.2 = none := by
        intro y hy
        have hne : a ≠ y.1 ∧ b ≠ y.2 :=
          ⟨fun he => hfst.1 (List.mem_map.2 ⟨y, hy, he.symm⟩),
            fun he => hsnd.1 (List.mem_map.2 ⟨y, hy, he.symm⟩)⟩
        rw [image?_of_add hr, origin?_of_add hr, if_neg hne.1, if_neg hne.2]
        exact hfree y (by simp [hy])
      obtain ⟨q, hq, hsound, hpairs⟩ := ih (h.add hr) hfst.2 hsnd.2 hrest
      refine ⟨q, ?_, hsound, by rw [hpairs, pairs_of_add hr, List.append_assoc]; rfl⟩
      rw [Pairing.addAll, hr]
      exact hq

end Sound

end Pairing

end TreeDelta
