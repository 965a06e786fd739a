import Mathlib.Data.List.Dedup
import TreeDelta.Proofs.PairingAttempts

namespace TreeDelta

open Slotted (slot)

variable {ι : Type}

theorem Pairing.reserve_eq_ok {n m : Nat} (hn : n + 1 < wordLimit) (hm : m + 1 < wordLimit) :
    (reserve n m : Except Fault (Pairing ι)) = .ok (withCapacity n m) := by
  rw [reserve, addWord, addWord, if_pos hn, if_pos hm]
  rfl

namespace Pairing

inductive Call (ι : Type) where
  | add (a b : ι)
  /-- The kinds of nodes and the identifiers below two of them are all that adding their subtrees
  reads of the trees. -/
  | addRose (srcKind dstKind : ι → Except Fault Kind) (s t : Rose ι)
  | remove (a b : ι)

inductive Reply where
  | done
  | removed (found : Bool)
  | fault (why : Fault)
deriving DecidableEq

def Reply.ofResult : Except Fault Unit → Reply
  | .ok _ => .done
  | .error why => .fault why

/-- The call names source nodes of `S` and destination nodes of `D` only. -/
def Call.Among (S D : Set ι) : Call ι → Prop
  | .add a b => a ∈ S ∧ b ∈ D
  | .addRose _ _ s t => (∀ a ∈ s.preorder, a ∈ S) ∧ ∀ b ∈ t.preorder, b ∈ D
  | .remove a b => a ∈ S ∧ b ∈ D

theorem Call.Among.route {S D : Set ι} {srcKind dstKind : ι → Except Fault Kind} {s t : Rose ι}
    (h : (Call.addRose srcKind dstKind s t).Among S D) :
    ∀ x ∈ (Pairer.route srcKind dstKind s t).1, x.1 ∈ S ∧ x.2 ∈ D := fun x hx =>
  (Pairer.of_mem_route srcKind dstKind s t x hx).imp (h.1 x.1) (h.2 x.2)

end Pairing

variable [Slotted ι]

namespace Register

theorem size_enter (r : Register ι) (id partner : ι) :
    (r.enter id partner).slots.size = max r.slots.size (slot id + 1) := by
  rw [enter, Array.size_setIfInBounds, Array.size_append, Array.size_replicate]
  omega

theorem size_clear (r : Register ι) (id : ι) : (r.clear id).slots.size = r.slots.size :=
  Array.size_setIfInBounds

end Register

namespace Pairing

variable {p q : Pairing ι} {a b : ι} {l : List (ι × ι)} {S D : Set ι}

def Fits (p : Pairing ι) : Prop := ∀ a b, p.image? a = some b → slot b < p.origins.slots.size

theorem fits_empty : (empty : Pairing ι).Fits := fun a b h => by simp [image?, empty] at h

theorem fits_withCapacity (n m : Nat) : (withCapacity n m : Pairing ι).Fits := fun a b h => by
  simp [image?, withCapacity] at h

theorem Fits.add (h : p.Fits) (hadd : p.add a b = .ok q) : q.Fits := by
  have hsize : q.origins.slots.size = max p.origins.slots.size (slot b + 1) := by
    rw [Pairing.add] at hadd
    split at hadd
    · cases hadd
      exact Register.size_enter _ b a
    · cases hadd
  intro x y hxy
  rw [slot_image?_of_add hadd] at hxy
  split at hxy
  · cases hxy
    omega
  · have hy := h x y hxy
    omega

theorem Fits.attempt (h : p.Fits) (l : List (ι × ι)) (ending : Except Fault Unit) :
    (p.attempt l ending).2.Fits := by
  induction l generalizing p with
  | nil => exact h
  | cons x l ih =>
      obtain ⟨a, b⟩ := x
      rw [Pairing.attempt]
      cases hadd : p.add a b with
      | error fault => exact h
      | ok q => exact ih (h.add hadd)

variable [DecidableEq ι]

theorem remove_of_not_joins (h : ¬ p.joins a b) : p.remove a b = (false, p) := by
  rw [remove, if_neg h]

theorem SameView.joins_eq (h : SameView p q) (a b : ι) : p.joins a b = q.joins a b := by
  simp only [joins, h.image]

theorem SameView.remove (h : SameView p q) (a b : ι) :
    (p.remove a b).1 = (q.remove a b).1 ∧ SameView (p.remove a b).2 (q.remove a b).2 := by
  refine ⟨?_, fun x => ?_, fun y => ?_, ?_⟩
  · simp only [Pairing.remove, h.joins_eq]
    split <;> rfl
  · rw [image?_remove, image?_remove, h.joins_eq, h.image]
  · rw [origin?_remove, origin?_remove, h.joins_eq, h.origin]
  · rw [pairs_remove, pairs_remove, h.joins_eq, h.pairs]

/-- A call that faults leaves what it has reached. -/
def call (p : Pairing ι) : Call ι → Reply × Pairing ι
  | .add a b => ((Pairer.add a b).run p).map .ofResult id
  | .addRose srcKind dstKind s t =>
      ((Pairer.addRose srcKind dstKind s t).run p).map .ofResult id
  | .remove a b => (p.remove a b).map .removed id

def callAll (p : Pairing ι) : List (Call ι) → List Reply × Pairing ι
  | [] => ([], p)
  | c :: cs => ((p.call c).2.callAll cs).map ((p.call c).1 :: ·) id

def additions (p : Pairing ι) : Call ι → List (ι × ι)
  | .add a b => p.fitting [(a, b)]
  | .addRose srcKind dstKind s t => p.fitting (Pairer.route srcKind dstKind s t).1
  | .remove _ _ => []

/-- Every addition of a run, the pairs that were removed again included. -/
def history (p : Pairing ι) : List (Call ι) → List (ι × ι)
  | [] => []
  | c :: cs => p.additions c ++ (p.call c).2.history cs

theorem call_add (p : Pairing ι) (a b : ι) :
    p.call (.add a b) = (p.attempt [(a, b)] (.ok ())).map .ofResult id := by
  rw [call, Pairer.attempts_add]

theorem call_addRose (p : Pairing ι) (srcKind dstKind : ι → Except Fault Kind) (s t : Rose ι) :
    p.call (.addRose srcKind dstKind s t) =
      (p.attempt (Pairer.route srcKind dstKind s t).1 (Pairer.route srcKind dstKind s t).2).map
        .ofResult id := by
  rw [call, Pairer.attempts_addRose]

theorem SameView.call (h : SameView p q) (c : Call ι) :
    (p.call c).1 = (q.call c).1 ∧ SameView (p.call c).2 (q.call c).2 ∧
      p.additions c = q.additions c := by
  cases c with
  | add a b =>
      obtain ⟨hreply, hview, hfit⟩ := h.attempt [(a, b)] (.ok ())
      rw [call_add, call_add]
      exact ⟨congrArg Reply.ofResult hreply, hview, hfit⟩
  | addRose srcKind dstKind s t =>
      obtain ⟨hreply, hview, hfit⟩ := h.attempt (Pairer.route srcKind dstKind s t).1 _
      rw [call_addRose, call_addRose]
      exact ⟨congrArg Reply.ofResult hreply, hview, hfit⟩
  | remove a b =>
      obtain ⟨hreply, hview⟩ := h.remove a b
      exact ⟨congrArg Reply.removed hreply, hview, rfl⟩

theorem SameView.callAll (h : SameView p q) (cs : List (Call ι)) :
    (p.callAll cs).1 = (q.callAll cs).1 ∧ SameView (p.callAll cs).2 (q.callAll cs).2 ∧
      p.history cs = q.history cs := by
  induction cs generalizing p q with
  | nil => exact ⟨rfl, h, rfl⟩
  | cons c cs ih =>
      obtain ⟨hreply, hview, hadded⟩ := h.call c
      obtain ⟨hreplies, hlast, hhistory⟩ := ih hview
      refine ⟨?_, hlast, ?_⟩
      · exact congrArg₂ List.cons hreply hreplies
      · rw [history, history, hadded, hhistory]

theorem dedup_concat {α : Type} [DecidableEq α] (l : List α) (x : α) :
    (l ++ [x]).dedup = (l.filter (· ≠ x)).dedup ++ [x] := by
  induction l with
  | nil => rfl
  | cons y l ih =>
      by_cases hx : y = x
      · subst hx
        rw [List.cons_append, List.dedup_cons_of_mem (by simp), ih]
        simp
      · rw [List.filter_cons_of_pos (by simpa using hx), List.cons_append]
        by_cases hy : y ∈ l
        · rw [List.dedup_cons_of_mem (by simp [hy]), List.dedup_cons_of_mem (by simp [hy, hx]), ih]
        · rw [List.dedup_cons_of_notMem (by simp [hy, hx]), List.dedup_cons_of_notMem (by simp [hy]),
            ih, List.cons_append]

theorem filter_dedup {α : Type} [DecidableEq α] (f : α → Bool) (l : List α) :
    l.dedup.filter f = (l.filter f).dedup := by
  induction l with
  | nil => rfl
  | cons y l ih =>
      by_cases hy : y ∈ l <;> by_cases hf : f y
      · rw [List.dedup_cons_of_mem hy, List.filter_cons_of_pos hf,
          List.dedup_cons_of_mem (List.mem_filter.2 ⟨hy, hf⟩), ih]
      · rw [List.dedup_cons_of_mem hy, List.filter_cons_of_neg hf, ih]
      · rw [List.dedup_cons_of_notMem hy, List.filter_cons_of_pos hf, List.filter_cons_of_pos hf,
          List.dedup_cons_of_notMem (fun hm => hy (List.mem_filter.1 hm).1), ih]
      · rw [List.dedup_cons_of_notMem hy, List.filter_cons_of_neg hf, List.filter_cons_of_neg hf, ih]

def standing (p : Pairing ι) (l : List (ι × ι)) : List (ι × ι) :=
  l.filter fun x => p.joins x.1 x.2

structure Kept (S D : Set ι) (l : List (ι × ι)) (p : Pairing ι) : Prop where
  sound : p.SoundOn S D
  added : ∀ x ∈ l, x.1 ∈ S
  pairs : p.pairs = (p.standing l).dedup

theorem joins_of_add (h : p.add a b = .ok q) (hS : S.InjOn slot) (ha : a ∈ S) {x : ι} (hx : x ∈ S)
    (y : ι) : q.joins x y ↔ p.joins x y ∨ (x, y) = (a, b) := by
  have hfree := (free_of_add h).1
  rw [joins_iff, joins_iff, slot_image?_of_add h]
  by_cases hslot : slot a = slot x
  · obtain rfl := hS ha hx hslot
    simp [hfree, eq_comm]
  · have hne : x ≠ a := fun he => hslot (he ▸ rfl)
    simp [hslot, hne]

theorem joins_remove (hS : S.InjOn slot) (ha : a ∈ S) {x : ι} (hx : x ∈ S) (b y : ι) :
    (p.remove a b).2.joins x y ↔ p.joins x y ∧ (x, y) ≠ (a, b) := by
  rw [joins_iff, joins_iff, image?_remove]
  by_cases hj : p.joins a b
  · have hab := joins_iff.1 hj
    by_cases hslot : slot a = slot x
    · obtain rfl := hS ha hx hslot
      simp [hj, hab, eq_comm]
    · have hne : x ≠ a := fun he => hslot (he ▸ rfl)
      simp [hslot, hne]
  · rw [if_neg fun h => hj h.1]
    refine ⟨fun hxy => ⟨hxy, ?_⟩, And.left⟩
    rintro ⟨⟩
    exact hj (joins_iff.2 hxy)

section Distinct

variable (hS : S.InjOn slot) (hD : D.InjOn slot)

include hS hD

theorem Kept.add (h : Kept S D l p) (ha : a ∈ S) (hb : b ∈ D) (hadd : p.add a b = .ok q) :
    Kept S D (l ++ [(a, b)]) q := by
  have hfree : ¬ p.joins a b := by simp [joins_iff, (free_of_add hadd).1]
  have hnew : q.standing (l ++ [(a, b)]) = q.standing l ++ [(a, b)] := by
    have hab : q.joins a b := (joins_of_add hadd hS ha ha b).2 (.inr rfl)
    simp [standing, hab]
  -- an earlier addition of this pair no longer counts
  have hold : (q.standing l).filter (· ≠ (a, b)) = p.standing l := by
    rw [standing, standing, List.filter_filter]
    apply List.filter_congr
    rintro ⟨x, y⟩ hxy
    rw [Bool.eq_iff_iff, Bool.and_eq_true, decide_eq_true_iff,
      joins_of_add hadd hS ha (h.added _ hxy)]
    constructor
    · rintro ⟨hne, hxy | heq⟩
      · exact hxy
      · exact absurd heq hne
    · intro hxy
      refine ⟨fun heq => ?_, .inl hxy⟩
      cases heq
      exact hfree hxy
  refine ⟨h.sound.add hS hD ha hb hadd, ?_, ?_⟩
  · exact List.forall_mem_append.2 ⟨h.added, List.forall_mem_singleton.2 ha⟩
  · rw [hnew, dedup_concat, hold, pairs_of_add hadd, h.pairs]

theorem Kept.remove (h : Kept S D l p) (ha : a ∈ S) (b : ι) : Kept S D l (p.remove a b).2 := by
  refine ⟨h.sound.remove hS hD ha b, h.added, ?_⟩
  by_cases hj : p.joins a b
  · rw [pairs_remove, if_pos hj, h.pairs, filter_dedup, standing, standing, List.filter_filter]
    congr 1
    apply List.filter_congr
    rintro ⟨x, y⟩ hxy
    rw [Bool.eq_iff_iff, Bool.and_eq_true, bne_iff_ne, joins_remove hS ha (h.added _ hxy)]
    exact and_comm
  · rw [remove_of_not_joins hj]
    exact h.pairs

theorem Kept.attempt (h : Kept S D l p) {l' : List (ι × ι)} (hl : ∀ x ∈ l', x.1 ∈ S ∧ x.2 ∈ D)
    (ending : Except Fault Unit) : Kept S D (l ++ p.fitting l') (p.attempt l' ending).2 := by
  induction l' generalizing l p with
  | nil => rwa [fitting, List.append_nil]
  | cons x l' ih =>
      obtain ⟨a, b⟩ := x
      obtain ⟨⟨ha, hb⟩, hl⟩ := List.forall_mem_cons.1 hl
      rw [fitting, Pairing.attempt]
      cases hadd : p.add a b with
      | error fault => rwa [List.append_nil]
      | ok q =>
          rw [List.append_cons]
          exact ih (h.add hS hD ha hb hadd) hl

end Distinct

section Distinct

variable (hS : S.InjOn slot) (hD : D.InjOn slot)

include hS hD

theorem Kept.call (h : Kept S D l p) {c : Call ι} (hc : c.Among S D) :
    Kept S D (l ++ p.additions c) (p.call c).2 := by
  cases c with
  | add a b =>
      have hab : ∀ x ∈ [(a, b)], x.1 ∈ S ∧ x.2 ∈ D := List.forall_mem_singleton.2 hc
      rw [call_add]
      exact h.attempt hS hD hab _
  | addRose srcKind dstKind s t =>
      rw [call_addRose]
      exact h.attempt hS hD hc.route _
  | remove a b =>
      rw [additions, List.append_nil]
      exact h.remove hS hD hc.1 b

theorem Kept.callAll (h : Kept S D l p) {cs : List (Call ι)} (hcs : ∀ c ∈ cs, c.Among S D) :
    Kept S D (l ++ p.history cs) (p.callAll cs).2 := by
  induction cs generalizing l p with
  | nil => rwa [history, List.append_nil]
  | cons c cs ih =>
      obtain ⟨hc, hcs⟩ := List.forall_mem_cons.1 hcs
      rw [history, ← List.append_assoc]
      exact ih (h.call hS hD hc) hcs

end Distinct

def Call.takes : Call ι → ι × ι → Bool
  | .remove a b, x => x == (a, b)
  | _, _ => false

/-- What a caller can rely on after these additions, for source nodes of `S` and destination nodes
of `D`. -/
structure Faithful (S D : Set ι) (l : List (ι × ι)) (p : Pairing ι) : Prop where
  image_iff_origin : ∀ a ∈ S, ∀ b ∈ D, p.image? a = some b ↔ p.origin? b = some a
  image_iff_mem : ∀ a ∈ S, ∀ b, p.image? a = some b ↔ (a, b) ∈ p.pairs
  once : ∀ x ∈ p.pairs, p.pairs.count x = 1
  /-- Of the additions of one pair only the last counts. -/
  in_order : p.pairs = (p.standing l).dedup
  /-- A call drops at most the pair it removes and appends what it adds. -/
  called : ∀ c : Call ι, c.Among S D →
    (p.call c).2.pairs = (p.pairs.filter fun x => !c.takes x) ++ p.additions c

/-- What a caller can rely on whichever nodes are named. -/
structure Safe (p : Pairing ι) : Prop where
  refused : ∀ a b why, (p.call (.add a b)).1 = .fault why →
    (p.srcPaired a ∨ p.dstPaired b) ∧ (p.call (.add a b)).2 = p
  not_removed : ∀ a b, (p.call (.remove a b)).1 = .removed false →
    ¬ p.joins a b ∧ (p.call (.remove a b)).2 = p
  /-- A pair that is removed has a slot on either side. -/
  in_range : ∀ a b, (p.call (.remove a b)).1 = .removed true →
    slot a < p.images.slots.size ∧ slot b < p.origins.slots.size

theorem SoundOn.pairs_call (h : p.SoundOn S D) {c : Call ι} (hc : c.Among S D) :
    (p.call c).2.pairs = (p.pairs.filter fun x => !c.takes x) ++ p.additions c := by
  cases c with
  | add a b =>
      simp only [call_add, Call.takes, Bool.not_false, List.filter_true]
      exact pairs_attempt p [(a, b)] _
  | addRose srcKind dstKind s t =>
      simp only [call_addRose, Call.takes, Bool.not_false, List.filter_true]
      exact pairs_attempt _ _ _
  | remove a b =>
      rw [additions, List.append_nil]
      refine (pairs_remove p a b).trans ?_
      split
      · rfl
      · next hj =>
        -- a pair that is not there is not dropped
        refine (List.filter_eq_self.2 fun x hx => ?_).symm
        have hne : x ≠ (a, b) := by
          rintro rfl
          exact hj (joins_iff.2 ((h.mem_iff_image a hc.1 b).1 hx))
        simpa [Call.takes] using hne

theorem Kept.faithful (h : Kept S D l p) : p.Faithful S D l where
  image_iff_origin a ha b hb :=
    (h.sound.mem_iff_image a ha b).symm.trans (h.sound.mem_iff_origin b hb a)
  image_iff_mem a ha b := (h.sound.mem_iff_image a ha b).symm
  once _ hx := List.count_eq_one_of_mem h.sound.nodup_pairs hx
  in_order := h.pairs
  called _ hc := h.sound.pairs_call hc

theorem kept_empty (S D : Set ι) : Kept S D [] empty := ⟨.empty S D, nofun, rfl⟩

theorem kept_withCapacity (S D : Set ι) (n m : Nat) : Kept S D [] (withCapacity n m) :=
  ⟨.withCapacity S D n m, nofun, rfl⟩

theorem refused_of_fault {why : Fault} (h : (p.call (.add a b)).1 = .fault why) :
    (p.srcPaired a ∨ p.dstPaired b) ∧ (p.call (.add a b)).2 = p := by
  by_cases hfree : p.bothFree a b
  · obtain ⟨q, hq⟩ := add_eq_ok_iff.2 (bothFree_iff.1 hfree)
    simp [call_add, attempt, hq, Reply.ofResult] at h
  · rw [call_add, attempt, add_eq_error_iff.2 hfree]
    refine ⟨?_, rfl⟩
    simpa [bothFree, or_iff_not_imp_left] using hfree

theorem call_remove_iff (found : Bool) :
    (p.call (.remove a b)).1 = .removed found ↔ p.joins a b = found := by
  rw [call, remove]
  by_cases hj : p.joins a b <;> simp [hj]

theorem Fits.remove (h : p.Fits) (a b : ι) : (p.remove a b).2.Fits := by
  have hsize : (p.remove a b).2.origins.slots.size = p.origins.slots.size := by
    rw [Pairing.remove]
    split
    · exact Register.size_clear _ b
    · rfl
  intro x y hxy
  rw [image?_remove] at hxy
  split at hxy
  · cases hxy
  · exact hsize ▸ h x y hxy

theorem Fits.callAll (h : p.Fits) (cs : List (Call ι)) : (p.callAll cs).2.Fits := by
  induction cs generalizing p with
  | nil => exact h
  | cons c cs ih =>
      refine ih ?_
      cases c with
      | add a b =>
          rw [call_add]
          exact h.attempt [(a, b)] _
      | addRose srcKind dstKind s t =>
          rw [call_addRose]
          exact h.attempt (Pairer.route srcKind dstKind s t).1 _
      | remove a b => exact h.remove a b

theorem Fits.safe (h : p.Fits) : p.Safe where
  refused a b why := refused_of_fault
  not_removed a b hno := by
    have hj := Bool.not_eq_true _ ▸ (call_remove_iff false).1 hno
    exact ⟨hj, by rw [Pairing.call, remove_of_not_joins hj]; rfl⟩
  in_range a b hyes := by
    have himage := joins_iff.1 ((call_remove_iff true).1 hyes)
    exact ⟨Register.lt_size_of_get? himage, h a b himage⟩

end Pairing

end TreeDelta
