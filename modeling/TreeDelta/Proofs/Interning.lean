import TreeDelta.Interner
import TreeDelta.Proofs.KindTables

namespace TreeDelta

theorem lookup_cons_if {α β : Type} [DecidableEq α] (a key : α) (b : β) (l : List (α × β)) :
    ((key, b) :: l).lookup a = if a = key then some b else l.lookup a := by
  rw [List.lookup_cons]
  by_cases h : a = key
  · rw [beq_iff_eq.2 h, if_pos h]
  · rw [beq_false_of_ne h, if_neg h]

theorem eraseDups_concat {α : Type} [DecidableEq α] (l : List α) (a : α) :
    (l ++ [a]).eraseDups = if a ∈ l then l.eraseDups else l.eraseDups ++ [a] := by
  rw [List.eraseDups_append, List.removeAll]
  split
  · next h => simp [h]
  · next h => simp [h, List.eraseDups_cons]

theorem eraseDups_map {α β : Type} [DecidableEq α] [DecidableEq β] {f : α → β} (l : List α)
    (hf : ∀ a ∈ l, ∀ b ∈ l, f a = f b → a = b) : (l.map f).eraseDups = l.eraseDups.map f := by
  induction l using List.reverseRecOn with
  | nil => rfl
  | append_singleton l a ih =>
      have hmem : f a ∈ l.map f ↔ a ∈ l := by
        constructor
        · intro h
          obtain ⟨b, hb, heq⟩ := List.mem_map.1 h
          exact hf b (by simp [hb]) a (by simp) heq ▸ hb
        · exact List.mem_map_of_mem
      have hl := ih fun b hb c hc => hf b (by simp [hb]) c (by simp [hc])
      rw [List.map_append, List.map_singleton, eraseDups_concat, eraseDups_concat, hl]
      simp only [hmem]
      split <;> simp

theorem getElem?_map_eq_iff {α β : Type} {f : α → β} {l : List α}
    (hf : ∀ a ∈ l, ∀ b ∈ l, f a = f b → a = b) (i j : Nat) :
    (l.map f)[i]? = (l.map f)[j]? ↔ l[i]? = l[j]? := by
  rw [List.getElem?_map, List.getElem?_map]
  constructor
  · intro h
    cases hi : l[i]? with
    | none =>
        rw [hi, Option.map_none, eq_comm, Option.map_eq_none_iff] at h
        exact h.symm
    | some a =>
        rw [hi, Option.map_some, eq_comm, Option.map_eq_some_iff] at h
        obtain ⟨b, hj, heq⟩ := h
        rw [hj, hf b (List.mem_of_getElem? hj) a (List.mem_of_getElem? hi) heq]
  · exact congrArg (Option.map f)

theorem Kind.toNat_index_named {i : Nat} (h : i < UInt32.size) :
    (Kind.named i).index.toNat = i := by
  rw [index, UInt32.toNat_ofNat_of_lt' h]

namespace KindTable

variable {t : KindTable} {name : String} {kind : Kind} {names : List String}

theorem find?_eq_none_iff : t.find? name = none ↔ name ∉ t.names.toList := by
  rw [find?_eq, Option.map_eq_none_iff, List.findIdx?_eq_none_iff]
  constructor
  · intro h hmem
    exact absurd (h name hmem) (by simp)
  · rintro h old hold
    exact beq_false_of_ne fun heq => h (heq ▸ hold)

theorem intern_new (h : t.find? name = none) :
    t.intern name = (.named t.size, ⟨t.names.push name⟩) := by
  rw [intern, h]
  rfl

theorem size_push (t : KindTable) (name : String) : size ⟨t.names.push name⟩ = t.size + 1 :=
  Array.size_push name

theorem find?_push (h : t.find? name = none) (other : String) :
    find? ⟨t.names.push name⟩ other =
      if other = name then some (.named t.size) else t.find? other := by
  have hnone : t.names.toList.findIdx? (· == name) = none := by
    simpa [find?_eq] using h
  rw [find?_eq, find?_eq, Array.toList_push, List.findIdx?_append]
  split
  · next heq =>
    subst heq
    simp [hnone, size]
  · next hne => simp [Ne.symm hne]

theorem name?_push (t : KindTable) (name : String) (kind : Kind) :
    name? ⟨t.names.push name⟩ kind = if kind = .named t.size then some name else t.name? kind := by
  cases kind with
  | top => rfl
  | named i =>
      rw [name?, name?, Array.getElem?_push]
      simp [size]

theorem toList_intern (t : KindTable) (name : String) : (t.intern name).2.names.toList =
    if name ∈ t.names.toList then t.names.toList else t.names.toList ++ [name] := by
  cases h : t.find? name with
  | some kind =>
      have hmem : name ∈ t.names.toList := by
        rw [← not_not (a := name ∈ t.names.toList), ← find?_eq_none_iff, h]
        exact nofun
      rw [intern_of_find? h, if_pos hmem]
  | none => rw [intern_new h, if_neg (find?_eq_none_iff.1 h), Array.toList_push]

theorem Grown.size_le {u : KindTable} (h : t.Grown u) : t.size ≤ u.size := by
  simpa [size] using List.IsPrefix.length_le h

theorem toList_internAll_empty (names : List String) :
    (empty.internAll names).names.toList = names.eraseDups := by
  induction names using List.reverseRecOn with
  | nil => rfl
  | append_singleton names name ih =>
      rw [internAll_append, internAll_cons, internAll_nil, toList_intern, ih, eraseDups_concat]
      simp only [List.mem_eraseDups]

namespace Distinct

theorem find?_eq_some_iff (h : t.Distinct) : t.find? name = some kind ↔ t.name? kind = some name :=
  ⟨name?_of_find?, h.find?⟩

theorem map_kindOf (h : t.Distinct) :
    t.names.toList.map t.kindOf = (List.range t.size).map .named := by
  apply List.ext_getElem
  · simp [size]
  · intro i hi _
    have hsize : i < t.names.size := by simpa using hi
    have hname : t.name? (.named i) = some t.names[i] := Array.getElem?_eq_getElem hsize
    simp [kindOf, intern_of_find? (h.find? hname)]

end Distinct

theorem exists_number (h : t.name? kind = some name) : ∃ i < t.size, kind = .named i := by
  cases kind with
  | top => cases h
  | named i => exact ⟨i, (Array.getElem?_eq_some_iff.1 h).1, rfl⟩

section Fresh

theorem size_internAll_empty (names : List String) :
    (empty.internAll names).size = names.eraseDups.length := by
  rw [size, ← Array.length_toList, toList_internAll_empty]

theorem name?_kindOf_fresh (hname : name ∈ names) :
    (empty.internAll names).name? ((empty.internAll names).kindOf name) = some name :=
  name?_kindOf_of_mem (.refl _) hname

theorem kindOf_injOn {name' : String} (hname : name ∈ names) (hname' : name' ∈ names)
    (h : (empty.internAll names).kindOf name = (empty.internAll names).kindOf name') :
    name = name' := by
  have hboth := name?_kindOf_fresh hname
  rw [h, name?_kindOf_fresh hname'] at hboth
  exact (Option.some.inj hboth).symm

theorem eraseDups_kinds (names : List String) :
    (names.map (empty.internAll names).kindOf).eraseDups =
      (List.range (empty.internAll names).size).map .named := by
  rw [eraseDups_map names fun _ hname _ hname' => kindOf_injOn hname hname',
    ← toList_internAll_empty names, (distinct_internAll distinct_empty names).map_kindOf]

variable (hroom : (empty.internAll names).size < UInt32.size)
include hroom

theorem eraseDups_numbers :
    (names.map (empty.internAll names).kindOf).eraseDups.map (·.index.toNat) =
      List.range (empty.internAll names).size := by
  rw [eraseDups_kinds, List.map_map]
  refine (List.map_congr_left fun i hi => ?_).trans (List.map_id _)
  exact Kind.toNat_index_named ((List.mem_range.1 hi).trans hroom)

theorem number_kindOf (hname : name ∈ names) :
    (empty.internAll names).kindOf name = .named ((empty.internAll names).kindOf name).index.toNat ∧
      ((empty.internAll names).kindOf name).index.toNat < (empty.internAll names).size := by
  obtain ⟨i, hi, hkind⟩ := exists_number (name?_kindOf_fresh hname)
  rw [hkind, Kind.toNat_index_named (hi.trans hroom)]
  exact ⟨rfl, hi⟩

theorem index_injOn {name' : String} (hname : name ∈ names) (hname' : name' ∈ names)
    (h : ((empty.internAll names).kindOf name).index =
      ((empty.internAll names).kindOf name').index) : name = name' := by
  apply kindOf_injOn hname hname'
  rw [(number_kindOf hroom hname).1, (number_kindOf hroom hname').1, h]

end Fresh

end KindTable

namespace Interner

variable {t : Interner} {table : KindTable}

/-- The maps answer as the table does, and the next number is the number of names. -/
structure Keeps (t : Interner) (table : KindTable) : Prop where
  find? : ∀ name, t.find? name = table.find? name
  name? : ∀ kind, t.name? kind = table.name? kind
  size : t.size = table.size
  next : t.next.toNat = table.size

namespace Keeps

theorem empty : ({} : Interner).Keeps KindTable.empty where
  find? _ := by simp [Interner.find?, KindTable.find?_eq, KindTable.empty]
  name? kind := by cases kind <;> rfl
  size := rfl
  next := rfl

theorem insert (h : t.Keeps table) {name : String} (hnew : table.find? name = none)
    (hroom : table.size < 0xFFFFFFFF) :
    Keeps ⟨(name, .named table.size) :: t.byName, (.named table.size, name) :: t.byKind,
      t.next + 1⟩ ⟨table.names.push name⟩ where
  find? other := by
    rw [KindTable.find?_push hnew, ← h.find? other, Interner.find?, lookup_cons_if, Interner.find?]
  name? kind := by
    rw [KindTable.name?_push, ← h.name? kind, Interner.name?, lookup_cons_if, Interner.name?]
  size := by
    rw [KindTable.size_push, ← h.size]
    rfl
  next := by
    rw [KindTable.size_push, UInt32.toNat_add, h.next]
    exact Nat.mod_eq_of_lt (by change table.size + 1 < 4294967296; omega)

theorem ofIndex_next (h : t.Keeps table) (hroom : table.size < 0xFFFFFFFF) :
    Kind.ofIndex t.next = .named table.size := by
  have hlast : t.next ≠ 0xFFFFFFFF := by
    intro heq
    have hsize := h.next
    rw [heq] at hsize
    change 0xFFFFFFFF = table.size at hsize
    omega
  rw [Kind.ofIndex, if_neg hlast, h.next]

theorem intern (h : t.Keeps table) (name : String)
    (hroom : (table.intern name).2.size ≤ 0xFFFFFFFF) :
    ∃ u, t.intern name = (some (table.intern name).1, u) ∧ u.Keeps (table.intern name).2 := by
  rw [Interner.intern, h.find?]
  cases hfind : table.find? name with
  | some kind =>
      rw [KindTable.intern_of_find? hfind]
      exact ⟨t, rfl, h⟩
  | none =>
      rw [KindTable.intern_new hfind] at hroom ⊢
      have hlt : table.size < 0xFFFFFFFF := by
        rwa [KindTable.size_push] at hroom
      dsimp only
      rw [h.ofIndex_next hlt, if_neg nofun]
      exact ⟨_, rfl, h.insert hfind hlt⟩

theorem internAll (h : t.Keeps table) (names : List String)
    (hroom : (table.internAll names).size ≤ 0xFFFFFFFF) :
    ∃ u, t.internAll names = ((names.map (table.internAll names).kindOf).map some, u) ∧
      u.Keeps (table.internAll names) := by
  induction names generalizing t table with
  | nil => exact ⟨t, rfl, h⟩
  | cons name names ih =>
      have hgrown := KindTable.grown_internAll (table.intern name).2 names
      rw [KindTable.internAll_cons] at hroom ⊢
      obtain ⟨u, hu, hkeeps⟩ := h.intern name (hgrown.size_le.trans hroom)
      obtain ⟨v, hv, hlast⟩ := ih hkeeps hroom
      refine ⟨v, ?_, hlast⟩
      rw [Interner.internAll, hu]
      dsimp only
      rw [hv, List.map_cons, List.map_cons, KindTable.kindOf_of_grown hgrown]

end Keeps

/-- In any run on an empty interner that meets fewer names than there are numbers, names and kinds
are in one-to-one correspondence. The kinds given out are, by first occurrence, 0, 1, 2, …, and
none of them is the top kind. The two maps are inverse to each other, and what they say of the
names so far stays so in the rest of the run. -/
theorem maps_inverse (names later : List String)
    (hroom : (names ++ later).eraseDups.length < 0xFFFFFFFF) :
    ∃ (kinds : List Kind) (t : Interner),
      ({} : Interner).internAll names = (kinds.map some, t) ∧
      t.Keeps (KindTable.empty.internAll names) ∧
      names.map t.find? = kinds.map some ∧
      (∀ i j : Nat,
        (kinds.map Kind.index)[i]? = (kinds.map Kind.index)[j]? ↔ names[i]? = names[j]?) ∧
      t.size = names.eraseDups.length ∧
      kinds.eraseDups.map (·.index.toNat) = List.range t.size ∧
      (∀ kind ∈ kinds, kind.index ≠ Kind.top.index) ∧
      (∀ name kind, t.find? name = some kind ↔ t.name? kind = some name) ∧
      (∀ name ∈ names, (t.internAll later).2.find? name = t.find? name) ∧
      ∀ kind ∈ kinds, (t.internAll later).2.name? kind = t.name? kind := by
  have hgrown := KindTable.grown_internAll (KindTable.empty.internAll names) later
  have hdistinct := KindTable.distinct_internAll KindTable.distinct_empty names
  rw [← KindTable.size_internAll_empty, KindTable.internAll_append] at hroom
  have hlt := hgrown.size_le.trans_lt hroom
  have hword : (KindTable.empty.internAll names).size < UInt32.size := hlt.trans (by decide)
  obtain ⟨t, hrun, hkeeps⟩ := Keeps.empty.internAll names hlt.le
  obtain ⟨u, hlater, hkeeps'⟩ := hkeeps.internAll later hroom.le
  have hfind {name : String} (hname : name ∈ names) :=
    hdistinct.find? (KindTable.name?_kindOf_fresh hname)
  refine ⟨_, t, hrun, hkeeps, ?_, fun i j => ?_, ?_, ?_, ?_, fun name kind => ?_, ?_, ?_⟩
  · rw [List.map_map]
    apply List.map_congr_left
    intro name hname
    rw [hkeeps.find?, hfind hname]
    rfl
  · rw [List.map_map]
    apply getElem?_map_eq_iff
    exact fun a ha b hb => KindTable.index_injOn hword ha hb
  · rw [hkeeps.size, KindTable.size_internAll_empty]
  · rw [hkeeps.size, KindTable.eraseDups_numbers hword]
  · rw [List.forall_mem_map]
    intro name hname heq
    have hlast := (KindTable.number_kindOf hword hname).2
    rw [heq] at hlast
    exact Nat.lt_asymm hlast hlt
  · rw [hkeeps.find?, hkeeps.name?, hdistinct.find?_eq_some_iff]
  · intro name hname
    rw [hlater, hkeeps'.find?, hkeeps.find?, hfind hname]
    exact KindTable.find?_of_grown hgrown (hfind hname)
  · rw [List.forall_mem_map]
    intro name hname
    rw [hlater, hkeeps'.name?, hkeeps.name?, KindTable.name?_kindOf_fresh hname]
    exact KindTable.name?_of_find? (KindTable.find?_of_grown hgrown (hfind hname))

/-- The second use of a name gives its first kind again. -/
theorem maps_inverse_repeated :
    ∃ (kinds : List Kind) (t : Interner),
      ({} : Interner).internAll ["b", "a", "b"] = (kinds.map some, t) ∧ t.size = 2 ∧
      kinds.eraseDups.map (·.index.toNat) = [0, 1] ∧
      (t.internAll ["c", "a"]).2.find? "a" = t.find? "a" := by
  obtain ⟨kinds, t, hrun, -, -, -, hsize, horder, -, -, hlater, -⟩ :=
    maps_inverse ["b", "a", "b"] ["c", "a"] (by decide)
  have htwo : ["b", "a", "b"].eraseDups.length = 2 := by decide
  rw [hsize, htwo] at horder
  exact ⟨kinds, t, hrun, hsize.trans htwo, horder, hlater "a" (by simp)⟩

end Interner

end TreeDelta
