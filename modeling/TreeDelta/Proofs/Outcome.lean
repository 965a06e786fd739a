import Mathlib.Data.List.Basic
import Mathlib.Data.List.Forall2

namespace TreeDelta

variable {α β ε : Type}

theorem exists_of_bind_eq_ok {x : Except ε α} {k : α → Except ε β} {b : β}
    (h : x >>= k = .ok b) : ∃ a, x = .ok a ∧ k a = .ok b := by
  cases x with
  | error e => cases h
  | ok a => exact ⟨a, rfl, h⟩

/-- The computation succeeds with a value of which `post` holds. -/
def Gives (x : Except ε α) (post : α → Prop) : Prop := ∃ a, x = .ok a ∧ post a

namespace Gives

variable {x : Except ε α} {post post' : α → Prop} {next : β → Prop}

theorem ok {a : α} (h : post a) : Gives (.ok a : Except ε α) post := ⟨a, rfl, h⟩

theorem pure {a : α} (h : post a) : Gives (Pure.pure a : Except ε α) post := ⟨a, rfl, h⟩

theorem of_eq {a : α} (h : x = .ok a) : Gives x (· = a) := ⟨a, h, rfl⟩

theorem mono (h : Gives x post) (hpost : ∀ a, post a → post' a) : Gives x post' := by
  obtain ⟨a, hx, ha⟩ := h
  exact ⟨a, hx, hpost a ha⟩

theorem post_of_eq {a : α} (h : Gives x post) (hx : x = .ok a) : post a := by
  obtain ⟨b, hb, hpost⟩ := h
  cases hx.symm.trans hb
  exact hpost

theorem bind {k : α → Except ε β} (h : Gives x post) (hk : ∀ a, post a → Gives (k a) next) :
    Gives (x >>= k) next := by
  obtain ⟨a, rfl, ha⟩ := h
  exact hk a ha

theorem filterAuxM {g : α → Except ε Bool} {l acc : List α}
    (h : ∀ a ∈ l, Gives (g a) fun keep => keep → post a) (hacc : ∀ a ∈ acc, post a) :
    Gives (l.filterAuxM g acc) fun kept => ∀ a ∈ kept, post a := by
  induction l generalizing acc with
  | nil => exact .pure hacc
  | cons a l ih =>
      rw [List.filterAuxM]
      refine (h a (by simp)).bind fun keep hkeep => ih (fun b hb => h b (by simp [hb])) ?_
      cases keep with
      | false => exact hacc
      | true => simpa using ⟨hkeep rfl, hacc⟩

theorem filterM {g : α → Except ε Bool} {l : List α}
    (h : ∀ a ∈ l, Gives (g a) fun keep => keep → post a) :
    Gives (l.filterM g) fun kept => ∀ a ∈ kept, post a :=
  (filterAuxM h (by simp)).bind fun _ hkept => .pure fun a ha => hkept a (List.mem_reverse.1 ha)

end Gives

/-- The computation gives a value of which `post` holds, or fails for a reason that is excused. -/
def GivesOr (excuse : ε → Prop) (x : Except ε α) (post : α → Prop) : Prop :=
  Gives x post ∨ ∃ e, x = .error e ∧ excuse e

namespace GivesOr

variable {excuse excuse' : ε → Prop} {x : Except ε α} {post post' : α → Prop} {next : β → Prop}

theorem ok {a : α} (h : post a) : GivesOr excuse (.ok a) post := .inl (.ok h)

theorem pure {a : α} (h : post a) : GivesOr excuse (Pure.pure a) post := .inl (.pure h)

theorem mono (h : GivesOr excuse x post) (hpost : ∀ a, post a → post' a) :
    GivesOr excuse x post' :=
  h.imp_left fun hx => hx.mono hpost

theorem post_of_eq {a : α} (h : GivesOr excuse x post) (hx : x = .ok a) : post a := by
  rcases h with h | ⟨e, he, _⟩
  · exact h.post_of_eq hx
  · cases hx.symm.trans he

theorem and_eq (h : GivesOr excuse x post) :
    GivesOr excuse x fun a => x = .ok a ∧ post a :=
  h.imp_left fun ⟨a, hx, ha⟩ => ⟨a, hx, hx, ha⟩

theorem weaken (h : GivesOr excuse x post) (he : ∀ e, excuse e → excuse' e) :
    GivesOr excuse' x post :=
  h.imp_right fun ⟨e, hx, hexcuse⟩ => ⟨e, hx, he e hexcuse⟩

theorem bind {k : α → Except ε β} (h : GivesOr excuse x post)
    (hk : ∀ a, post a → GivesOr excuse (k a) next) : GivesOr excuse (x >>= k) next := by
  rcases h with ⟨a, rfl, ha⟩ | ⟨e, rfl, he⟩
  · exact hk a ha
  · exact .inr ⟨e, rfl, he⟩

theorem mapM {g : α → Except ε β} {r : α → β → Prop} {l : List α}
    (h : ∀ a ∈ l, GivesOr excuse (g a) (r a)) : GivesOr excuse (l.mapM g) (List.Forall₂ r l) := by
  induction l with
  | nil => exact .pure .nil
  | cons a l ih =>
      rw [List.mapM_cons]
      apply (h a (by simp)).bind
      intro b hb
      exact (ih fun c hc => h c (by simp [hc])).bind fun bs hbs => .pure (.cons hb hbs)

end GivesOr

theorem GivesOr.gives {x : Except ε α} {post : α → Prop} (h : GivesOr (fun _ => False) x post) :
    Gives x post := by
  apply h.resolve_right
  rintro ⟨_, _, hno⟩
  exact hno

theorem Gives.bindOr {excuse : ε → Prop} {x : Except ε α} {k : α → Except ε β} {post : α → Prop}
    {next : β → Prop} (h : Gives x post) (hk : ∀ a, post a → GivesOr excuse (k a) next) :
    GivesOr excuse (x >>= k) next :=
  GivesOr.bind (.inl h) hk

theorem Gives.mapM {g : α → Except ε β} {r : α → β → Prop} {l : List α}
    (h : ∀ a ∈ l, Gives (g a) (r a)) : Gives (l.mapM g) (List.Forall₂ r l) := by
  have hor : GivesOr (fun _ => False) (l.mapM g) (List.Forall₂ r l) :=
    .mapM fun a ha => .inl (h a ha)
  exact hor.gives

theorem filterAuxM_eq_ok {g : α → Except ε Bool} {keep : α → Bool} {l : List α}
    (h : ∀ a ∈ l, g a = .ok (keep a)) (acc : List α) :
    l.filterAuxM g acc = .ok ((l.filter keep).reverse ++ acc) := by
  induction l generalizing acc with
  | nil => rfl
  | cons a l ih =>
      rw [List.filterAuxM, h a (by simp)]
      change l.filterAuxM g (cond (keep a) (a :: acc) acc) = _
      rw [ih fun b hb => h b (by simp [hb])]
      cases ha : keep a <;> simp [ha]

theorem filterM_eq_ok {g : α → Except ε Bool} {keep : α → Bool} {l : List α}
    (h : ∀ a ∈ l, g a = .ok (keep a)) : l.filterM g = .ok (l.filter keep) := by
  rw [List.filterM, filterAuxM_eq_ok h]
  change Except.ok ((l.filter keep).reverse ++ []).reverse = _
  rw [List.append_nil, List.reverse_reverse]

theorem Gives.filterM_iff {g : α → Except ε Bool} {l : List α} {post : α → Prop}
    (h : ∀ a ∈ l, Gives (g a) fun keep => (keep ↔ post a)) :
    Gives (l.filterM g) fun kept => kept.Sublist l ∧ ∀ a, a ∈ kept ↔ a ∈ l ∧ post a := by
  have hkeep : ∀ a, ∃ keep : Bool, a ∈ l → g a = .ok keep ∧ (keep ↔ post a) := by
    intro a
    by_cases ha : a ∈ l
    · obtain ⟨keep, heq, hiff⟩ := h a ha
      exact ⟨keep, fun _ => ⟨heq, hiff⟩⟩
    · exact ⟨false, fun hmem => absurd hmem ha⟩
  choose keep hkeep using hkeep
  refine ⟨_, filterM_eq_ok fun a ha => (hkeep a ha).1, List.filter_sublist, fun a => ?_⟩
  rw [List.mem_filter]
  exact and_congr_right fun ha => (hkeep a ha).2

end TreeDelta
