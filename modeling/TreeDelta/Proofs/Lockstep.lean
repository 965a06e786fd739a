import Mathlib.Data.List.Forall2
import TreeDelta.Proofs.CommonSubsequences
import TreeDelta.Proofs.Outcome

open Relator (BiUnique)

namespace Relator.BiUnique

variable {α β : Type} [BEq α] [LawfulBEq α] [BEq β] [LawfulBEq β] {r : α → β → Prop}

theorem beq_eq (h : BiUnique r) {a a' : α} {b b' : β} (hab : r a b) (hab' : r a' b') :
    (a == a') = (b == b') := by
  rw [Bool.eq_iff_iff, beq_iff_eq, beq_iff_eq]
  exact Relator.rel_eq h hab hab'

theorem bne_eq (h : BiUnique r) {a a' : α} {b b' : β} (hab : r a b) (hab' : r a' b') :
    (a != a') = (b != b') :=
  congrArg not (h.beq_eq hab hab')

theorem beq_some_eq (h : BiUnique r) {o : Option α} {o' : Option β} (ho : Option.Rel r o o')
    {a : α} {b : β} (hab : r a b) : (o == some a) = (o' == some b) := by
  cases ho with
  | none => rfl
  | some hxy => exact h.beq_eq hxy hab

end Relator.BiUnique

namespace Option.Rel

variable {α α' β β' : Type} {r : α → β → Prop} {s : α' → β' → Prop} {o : Option α} {o' : Option β}

theorem cases (h : Option.Rel r o o') :
    (o = Option.none ∧ o' = Option.none) ∨
      ∃ a b, o = Option.some a ∧ o' = Option.some b ∧ r a b := by
  cases h with
  | none => exact .inl ⟨rfl, rfl⟩
  | some hab => exact .inr ⟨_, _, rfl, rfl, hab⟩

theorem isSome_eq (h : Option.Rel r o o') : o.isSome = o'.isSome := by cases h <;> rfl

theorem isNone_eq (h : Option.Rel r o o') : o.isNone = o'.isNone := by cases h <;> rfl

theorem any_eq (h : Option.Rel r o o') {f : α → Bool} {g : β → Bool}
    (hfg : ∀ a b, r a b → f a = g b) : o.any f = o'.any g := by
  cases h with
  | none => rfl
  | some hab => exact hfg _ _ hab

theorem bind (h : Option.Rel r o o') {f : α → Option α'} {g : β → Option β'}
    (hfg : ∀ a b, r a b → Option.Rel s (f a) (g b)) : Option.Rel s (o.bind f) (o'.bind g) := by
  cases h with
  | none => exact .none
  | some hab => exact hfg _ _ hab

theorem getD (h : Option.Rel r o o') {a : α} {b : β} (hab : r a b) : r (o.getD a) (o'.getD b) := by
  cases h with
  | none => exact hab
  | some hxy => exact hxy

theorem mono {r' : α → β → Prop} (h : Option.Rel r o o') (hr : ∀ a b, r a b → r' a b) :
    Option.Rel r' o o' := by
  cases h with
  | none => exact .none
  | some hab => exact .some (hr _ _ hab)

end Option.Rel

namespace List.Forall₂

variable {α α' β β' : Type} {r : α → β → Prop} {s : α' → β' → Prop} {l : List α} {l' : List β}

theorem imp_of_mem {r' : α → β → Prop} (h : Forall₂ r l l')
    (hr : ∀ a ∈ l, ∀ b, r a b → r' a b) : Forall₂ r' l l' :=
  ((List.forall₂_and_left _ _).2 ⟨hr, h⟩).imp fun _ b hab => hab.1 b hab.2

theorem map_eq_map {γ : Type} (h : Forall₂ r l l') {f : α → γ} {g : β → γ}
    (hfg : ∀ a b, r a b → f a = g b) : l.map f = l'.map g := by
  rw [← List.forall₂_eq_eq_eq]
  exact List.rel_map (fun _ _ hab => hfg _ _ hab) h

theorem filter (h : Forall₂ r l l') {f : α → Bool} {g : β → Bool}
    (hfg : ∀ a b, r a b → f a = g b) : Forall₂ r (l.filter f) (l'.filter g) :=
  List.rel_filter (fun _ _ hab => iff_of_eq (congrArg (· = true) (hfg _ _ hab))) h

theorem any_eq (h : Forall₂ r l l') {f : α → Bool} {g : β → Bool}
    (hfg : ∀ a b, r a b → f a = g b) : l.any f = l'.any g := by
  induction h with
  | nil => rfl
  | cons hab _ ih => rw [List.any_cons, List.any_cons, hfg _ _ hab, ih]

theorem all_eq (h : Forall₂ r l l') {f : α → Bool} {g : β → Bool}
    (hfg : ∀ a b, r a b → f a = g b) : l.all f = l'.all g := by
  induction h with
  | nil => rfl
  | cons hab _ ih => rw [List.all_cons, List.all_cons, hfg _ _ hab, ih]

theorem isEmpty_eq (h : Forall₂ r l l') : l.isEmpty = l'.isEmpty := by cases h <;> rfl

theorem head? (h : Forall₂ r l l') : Option.Rel r l.head? l'.head? := by
  cases h with
  | nil => exact .none
  | cons hab _ => exact .some hab

theorem getLast? (h : Forall₂ r l l') : Option.Rel r l.getLast? l'.getLast? := by
  rw [List.getLast?_eq_head?_reverse, List.getLast?_eq_head?_reverse]
  exact (List.rel_reverse h).head?

theorem takeWhile (h : Forall₂ r l l') {f : α → Bool} {g : β → Bool}
    (hfg : ∀ a b, r a b → f a = g b) : Forall₂ r (l.takeWhile f) (l'.takeWhile g) := by
  induction h with
  | nil => exact .nil
  | @cons a b _ _ hab _ ih =>
      rw [List.takeWhile_cons, List.takeWhile_cons, hfg a b hab]
      split
      · exact .cons hab ih
      · exact .nil

theorem dropWhile (h : Forall₂ r l l') {f : α → Bool} {g : β → Bool}
    (hfg : ∀ a b, r a b → f a = g b) : Forall₂ r (l.dropWhile f) (l'.dropWhile g) := by
  induction h with
  | nil => exact .nil
  | @cons a b _ _ hab htail ih =>
      rw [List.dropWhile_cons, List.dropWhile_cons, hfg a b hab]
      split
      · exact ih
      · exact .cons hab htail

theorem find? (h : Forall₂ r l l') {f : α → Bool} {g : β → Bool}
    (hfg : ∀ a b, r a b → f a = g b) : Option.Rel r (l.find? f) (l'.find? g) := by
  induction h with
  | nil => exact .none
  | @cons a b _ _ hab _ ih =>
      rw [List.find?_cons, List.find?_cons, hfg a b hab]
      split
      · exact .some hab
      · exact ih

section Unique

variable [BEq α] [LawfulBEq α] [BEq β] [LawfulBEq β] {a : α} {b : β}

theorem contains_eq (h : Forall₂ r l l') (hr : BiUnique r) (hab : r a b) :
    l.contains a = l'.contains b := by
  rw [Bool.eq_iff_iff, List.contains_iff_mem, List.contains_iff_mem]
  exact List.rel_mem hr hab h

theorem idxOf_eq (h : Forall₂ r l l') (hr : BiUnique r) (hab : r a b) :
    l.idxOf a = l'.idxOf b := by
  induction h with
  | nil => rfl
  | @cons x y _ _ hxy _ ih => rw [List.idxOf_cons, List.idxOf_cons, hr.beq_eq hxy hab, ih]

theorem erase (h : Forall₂ r l l') (hr : BiUnique r) (hab : r a b) :
    Forall₂ r (l.erase a) (l'.erase b) := by
  induction h with
  | nil => exact .nil
  | @cons x y _ _ hxy htail ih =>
      rw [List.erase_cons, List.erase_cons, hr.beq_eq hxy hab]
      split
      · exact htail
      · exact .cons hxy ih

end Unique

end List.Forall₂

namespace TreeDelta

variable {α α' β β' γ γ' ε : Type} {r : α → α' → Prop} {s : β → β' → Prop}

def Both (r : α → α' → Prop) (s : β → β' → Prop) (x : α × β) (y : α' × β') : Prop :=
  r x.1 y.1 ∧ s x.2 y.2

theorem Both.mk {a : α} {a' : α'} {b : β} {b' : β'} (ha : r a a') (hb : s b b') :
    Both r s (a, b) (a', b') := ⟨ha, hb⟩

theorem Both.biUnique (hr : BiUnique r) (hs : BiUnique s) : BiUnique (Both r s) := by
  refine ⟨fun x y z hx hy => ?_, fun x y z hy hz => ?_⟩
  · exact Prod.ext (hr.1 hx.1 hy.1) (hs.1 hx.2 hy.2)
  · exact Prod.ext (hr.2 hy.1 hz.1) (hs.2 hy.2 hz.2)

theorem forall₂_zipIdx {l : List α} {l' : List α'} (h : List.Forall₂ r l l') (n : Nat) :
    List.Forall₂ (Both r (· = ·)) (l.zipIdx n) (l'.zipIdx n) := by
  induction h generalizing n with
  | nil => exact .nil
  | cons hab _ ih => exact .cons ⟨hab, rfl⟩ (ih (n + 1))

theorem rel_lookup [BEq γ] {l : List (γ × α)} {l' : List (γ × α')}
    (h : List.Forall₂ (Both (· = ·) r) l l') (k : γ) :
    Option.Rel r (l.lookup k) (l'.lookup k) := by
  induction h with
  | nil => exact .none
  | @cons x y _ _ hxy _ ih =>
      rw [List.lookup_cons, List.lookup_cons, hxy.1]
      split
      · exact .some hxy.2
      · exact ih

theorem forall₂_mergeSort {l : List (γ × α)} {l' : List (γ × α')}
    (h : List.Forall₂ (Both (· = ·) r) l l') (le : γ → γ → Bool) :
    List.Forall₂ (Both (· = ·) r) (l.mergeSort fun x y => le x.1 y.1)
      (l'.mergeSort fun x y => le x.1 y.1) := by
  have hzip : ∀ z ∈ l.zip l', Both (· = ·) r z.1 z.2 := fun z hz => List.forall₂_zip h hz
  -- the sorted list of pairs of related items has the two sorted lists as its sides
  have hleft : ((l.zip l').mergeSort fun x y => le x.1.1 y.1.1).map Prod.fst =
      l.mergeSort fun x y => le x.1 y.1 := by
    rw [List.map_mergeSort (s := fun x y => le x.1 y.1) (by simp),
      List.map_fst_zip (Nat.le_of_eq h.length_eq)]
  have hright : ((l.zip l').mergeSort fun x y => le x.1.1 y.1.1).map Prod.snd =
      l'.mergeSort fun x y => le x.1 y.1 := by
    rw [List.map_mergeSort (s := fun x y => le x.1 y.1)
        fun x hx y hy => by rw [(hzip x hx).1, (hzip y hy).1],
      List.map_snd_zip (Nat.le_of_eq h.length_eq.symm)]
  rw [← hleft, ← hright, List.forall₂_map_left_iff, List.forall₂_map_right_iff, List.forall₂_same]
  exact fun z hz => hzip z (List.mem_mergeSort.1 hz)

theorem forall₂_tail {row : List α} {row' : List α'} (h : List.Forall₂ r row row') :
    List.Forall₂ r row.tail row'.tail := by
  cases h with
  | nil => exact .nil
  | cons _ htail => exact htail

section Chains

variable {rel : α → β → Bool} {rel' : α' → β' → Bool}
  (hrel : ∀ a a', r a a' → ∀ b b', s b b' → rel a b = rel' a' b')
include hrel

theorem chainLength_eq {as : List α} {as' : List α'} {bs : List β} {bs' : List β'}
    (has : List.Forall₂ r as as') (hbs : List.Forall₂ s bs bs') :
    chainLength rel as bs = chainLength rel' as' bs' := by
  induction has generalizing bs bs' with
  | nil => rw [chainLength_nil_left, chainLength_nil_left]
  | cons ha _ ihas =>
      induction hbs with
      | nil => rw [chainLength_nil_right, chainLength_nil_right]
      | cons hb hbs ihbs =>
          rw [chainLength_cons_cons, chainLength_cons_cons, hrel _ _ ha _ _ hb, ihas hbs,
            ihas (.cons hb hbs), ihbs]

theorem forall₂_commonSubsequence {as : List α} {as' : List α'} {bs : List β} {bs' : List β'}
    (has : List.Forall₂ r as as') (hbs : List.Forall₂ s bs bs') :
    List.Forall₂ (Both r s) (commonSubsequence rel as bs) (commonSubsequence rel' as' bs') := by
  induction has generalizing bs bs' with
  | nil => simp
  | cons ha has ihas =>
      induction hbs with
      | nil => simp
      | cons hb hbs ihbs =>
          rw [commonSubsequence_cons_cons, commonSubsequence_cons_cons, hrel _ _ ha _ _ hb,
            chainLength_eq hrel (.cons ha has) hbs, chainLength_eq hrel has (.cons hb hbs)]
          split
          · exact .cons ⟨ha, hb⟩ (ihas hbs)
          · split
            · exact ihas (.cons hb hbs)
            · exact ihbs

end Chains

/-- Both computations fail for one reason, or both give values that are related. -/
inductive Lockstep (r : α → α' → Prop) : Except ε α → Except ε α' → Prop where
  | ok {a : α} {a' : α'} (h : r a a') : Lockstep r (.ok a) (.ok a')
  | error (e : ε) : Lockstep r (.error e) (.error e)

namespace Lockstep

variable {x : Except ε α} {x' : Except ε α'}

theorem pure {a : α} {a' : α'} (h : r a a') :
    Lockstep r (Pure.pure a : Except ε α) (Pure.pure a') := .ok h

theorem exists_ok {a : α} (h : Lockstep r x x') (hx : x = .ok a) : ∃ a', x' = .ok a' ∧ r a a' := by
  cases h with
  | ok ha =>
      cases hx
      exact ⟨_, rfl, ha⟩
  | error e => cases hx

theorem eq_error {e : ε} (h : Lockstep r x x') (hx : x = .error e) : x' = .error e := by
  cases h with
  | ok ha => cases hx
  | error _ =>
      cases hx
      rfl

theorem bind {k : α → Except ε β} {k' : α' → Except ε β'} (h : Lockstep r x x')
    (hk : ∀ a a', r a a' → Lockstep s (k a) (k' a')) : Lockstep s (x >>= k) (x' >>= k') := by
  cases h with
  | ok ha => exact hk _ _ ha
  | error e => exact .error e

theorem after {y z : Except ε γ} {k : γ → Except ε β} {k' : γ → Except ε β'} (h : y = z)
    (hk : ∀ c, Lockstep s (k c) (k' c)) : Lockstep s (y >>= k) (z >>= k') := by
  subst h
  cases y with
  | ok c => exact hk c
  | error e => exact .error e

theorem and_left {excuse : ε → Prop} {post : α → Prop} (h : Lockstep r x x')
    (hx : GivesOr excuse x post) : Lockstep (fun a a' => r a a' ∧ post a) x x' := by
  cases h with
  | error e => exact .error e
  | ok ha =>
      rcases hx with ⟨_, ⟨⟩, hpost⟩ | ⟨_, ⟨⟩, _⟩
      exact .ok ⟨ha, hpost⟩

theorem and_right {excuse : ε → Prop} {post : α' → Prop} (h : Lockstep r x x')
    (hx : GivesOr excuse x' post) : Lockstep (fun a a' => r a a' ∧ post a') x x' := by
  cases h with
  | error e => exact .error e
  | ok ha =>
      rcases hx with ⟨_, ⟨⟩, hpost⟩ | ⟨_, ⟨⟩, _⟩
      exact .ok ⟨ha, hpost⟩

theorem mapM {f : α → Except ε β} {f' : α' → Except ε β'} {l : List α} {l' : List α'}
    (hl : List.Forall₂ r l l') (h : ∀ a a', r a a' → Lockstep s (f a) (f' a')) :
    Lockstep (List.Forall₂ s) (l.mapM f) (l'.mapM f') := by
  induction hl with
  | nil => exact .pure .nil
  | cons ha _ ih =>
      rw [List.mapM_cons, List.mapM_cons]
      apply (h _ _ ha).bind
      intro b b' hb
      exact ih.bind fun bs bs' hbs => .pure (.cons hb hbs)

theorem filterAuxM {f : α → Except ε Bool} {f' : α' → Except ε Bool} {l acc : List α}
    {l' acc' : List α'} (hl : List.Forall₂ r l l') (h : ∀ a a', r a a' → f a = f' a')
    (hacc : List.Forall₂ r acc acc') :
    Lockstep (List.Forall₂ r) (l.filterAuxM f acc) (l'.filterAuxM f' acc') := by
  induction hl generalizing acc acc' with
  | nil => exact .pure hacc
  | cons ha _ ih =>
      rw [List.filterAuxM, List.filterAuxM]
      apply after (h _ _ ha)
      intro keep
      cases keep with
      | false => exact ih hacc
      | true => exact ih (.cons ha hacc)

theorem filterM {f : α → Except ε Bool} {f' : α' → Except ε Bool} {l : List α} {l' : List α'}
    (hl : List.Forall₂ r l l') (h : ∀ a a', r a a' → f a = f' a') :
    Lockstep (List.Forall₂ r) (l.filterM f) (l'.filterM f') :=
  (filterAuxM hl h .nil).bind fun _ _ hkept => .pure (List.rel_reverse hkept)

end Lockstep

theorem bind_eq_bind {x : Except ε α} {x' : Except ε α'} (h : Lockstep r x x')
    {k : α → Except ε γ} {k' : α' → Except ε γ} (hk : ∀ a a', r a a' → k a = k' a') :
    x >>= k = x' >>= k' := by
  cases h with
  | ok ha => exact hk _ _ ha
  | error e => rfl

theorem mapM_eq_mapM {l : List α} {l' : List α'} (hl : List.Forall₂ r l l') {f : α → Except ε γ}
    {f' : α' → Except ε γ} (h : ∀ a a', r a a' → f a = f' a') : l.mapM f = l'.mapM f' := by
  induction hl with
  | nil => rfl
  | cons ha _ ih => rw [List.mapM_cons, List.mapM_cons, h _ _ ha, ih]

end TreeDelta
