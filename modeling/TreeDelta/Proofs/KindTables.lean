import Mathlib.Data.List.Infix
import Mathlib.Data.List.Nodup
import TreeDelta.Kind

namespace TreeDelta.KindTable

variable {t u v : KindTable} {name : String} {kind : Kind}

def Grown (t u : KindTable) : Prop := t.names.toList <+: u.names.toList

theorem Grown.refl (t : KindTable) : t.Grown t := List.prefix_refl _

theorem Grown.trans (h : t.Grown u) (h' : u.Grown v) : t.Grown v := List.IsPrefix.trans h h'

theorem grown_intern (t : KindTable) (name : String) : t.Grown (t.intern name).2 := by
  unfold intern
  split
  · exact .refl t
  · simp [Grown]

/-- The kind of a name in a table, or the one it would get there. -/
def kindOf (t : KindTable) (name : String) : Kind := (t.intern name).1

def internAll (t : KindTable) (names : List String) : KindTable :=
  names.foldl (fun t name => (t.intern name).2) t

@[simp] theorem internAll_nil (t : KindTable) : t.internAll [] = t := rfl

@[simp] theorem internAll_cons (t : KindTable) (name : String) (names : List String) :
    t.internAll (name :: names) = (t.intern name).2.internAll names := rfl

@[simp] theorem internAll_append (t : KindTable) (names names' : List String) :
    t.internAll (names ++ names') = (t.internAll names).internAll names' :=
  List.foldl_append

theorem grown_internAll (t : KindTable) (names : List String) : t.Grown (t.internAll names) := by
  induction names generalizing t with
  | nil => exact .refl t
  | cons name names ih => exact (t.grown_intern name).trans (ih _)

theorem find?_eq (t : KindTable) (name : String) :
    t.find? name = (t.names.toList.findIdx? (· == name)).map .named := by
  obtain ⟨⟨names⟩⟩ := t
  rw [find?, List.idxOf?_toArray, List.idxOf?]

theorem find?_of_grown (h : t.Grown u) (hfind : t.find? name = some kind) :
    u.find? name = some kind := by
  obtain ⟨rest, hrest⟩ := h
  obtain ⟨i, hi, rfl⟩ := Option.map_eq_some_iff.1 (t.find?_eq name ▸ hfind)
  rw [find?_eq, ← hrest, List.findIdx?_append, hi]
  rfl

theorem find?_intern (t : KindTable) (name : String) :
    (t.intern name).2.find? name = some (t.intern name).1 := by
  unfold intern
  split
  · next h => exact h
  · next h =>
      have hnone : t.names.toList.findIdx? (· == name) = none := by
        simpa [find?_eq] using h
      simp [find?_eq, List.findIdx?_append, hnone]

theorem intern_of_find? (h : t.find? name = some kind) : t.intern name = (kind, t) := by
  rw [intern, h]

theorem kindOf_of_grown (h : (t.intern name).2.Grown u) : u.kindOf name = (t.intern name).1 := by
  rw [kindOf, intern_of_find? (find?_of_grown h (t.find?_intern name))]

theorem name?_kindOf (h : (t.intern name).2.Grown u) : u.name? (u.kindOf name) = some name := by
  rw [kindOf_of_grown h]
  exact name?_of_find? (find?_of_grown h (t.find?_intern name))

theorem name?_kindOf_of_mem {names : List String} (h : (t.internAll names).Grown u)
    (hname : name ∈ names) : u.name? (u.kindOf name) = some name := by
  induction names generalizing t with
  | nil => cases hname
  | cons first names ih =>
      rcases List.mem_cons.1 hname with rfl | hname
      · exact name?_kindOf ((grown_internAll _ names).trans h)
      · exact ih h hname

theorem internAll_of_find? {names : List String} (h : ∀ name ∈ names, (t.find? name).isSome) :
    t.internAll names = t := by
  induction names with
  | nil => rfl
  | cons name names ih =>
      obtain ⟨kind, hkind⟩ := Option.isSome_iff_exists.1 (h name (by simp))
      rw [internAll_cons, intern_of_find? hkind]
      exact ih fun other hother => h other (by simp [hother])

def Distinct (t : KindTable) : Prop := t.names.toList.Nodup

theorem distinct_empty : empty.Distinct := List.nodup_nil

theorem Distinct.intern (h : t.Distinct) (name : String) : (t.intern name).2.Distinct := by
  unfold KindTable.intern
  split
  · exact h
  · next hnone =>
      have hnew : ∀ old ∈ t.names.toList, ¬ old = name := by
        simpa [find?_eq] using hnone
      rw [Distinct, Array.toList_push, List.nodup_append]
      refine ⟨h, by simp, ?_⟩
      intro old hold other hother
      rw [List.mem_singleton.1 hother]
      exact hnew old hold

theorem distinct_internAll (h : t.Distinct) (names : List String) :
    (t.internAll names).Distinct := by
  induction names generalizing t with
  | nil => exact h
  | cons name names ih => exact ih (h.intern name)

theorem Distinct.find? (h : t.Distinct) (hname : t.name? kind = some name) :
    t.find? name = some kind := by
  cases kind with
  | top => cases hname
  | named i =>
      obtain ⟨hi, rfl⟩ := Array.getElem?_eq_some_iff.1 hname
      have hlen : i < t.names.toList.length := by simpa using hi
      have hfirst : t.names.toList.findIdx? (· == t.names[i]) = some i := by
        refine List.findIdx?_eq_some_iff_getElem.2 ⟨hlen, by simp, ?_⟩
        intro j hj heq
        have hsame : t.names.toList[j] = t.names.toList[i] := by
          simpa only [Array.getElem_toList] using beq_iff_eq.1 heq
        have hji : j = i := (List.Nodup.getElem_inj_iff h).1 hsame
        omega
      rw [find?_eq, hfirst]
      rfl

end TreeDelta.KindTable
