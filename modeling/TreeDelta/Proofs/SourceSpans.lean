import TreeDelta.Proofs.Acceptance
import TreeDelta.Proofs.Measures
import TreeDelta.Proofs.Parentheses
import TreeDelta.Proofs.Parts
import TreeDelta.Proofs.WrittenTrees

namespace TreeDelta

namespace KindTable

variable {t u : KindTable} {name : String}

theorem isSome_find?_of_grown (h : t.Grown u) (hname : (t.find? name).isSome) :
    (u.find? name).isSome := by
  obtain ⟨kind, hkind⟩ := Option.isSome_iff_exists.1 hname
  rw [find?_of_grown h hkind]
  rfl

theorem isSome_find?_internAll (t : KindTable) {names : List String} (h : name ∈ names) :
    ((t.internAll names).find? name).isSome := by
  induction names generalizing t with
  | nil => cases h
  | cons first names ih =>
      rcases List.mem_cons.1 h with rfl | h
      · apply isSome_find?_of_grown (grown_internAll _ names)
        rw [find?_intern]
        rfl
      · exact ih _ h

theorem kindOf_eq_of_grown (h : t.Grown u) (hname : (t.find? name).isSome) :
    u.kindOf name = t.kindOf name := by
  obtain ⟨kind, hkind⟩ := Option.isSome_iff_exists.1 hname
  rw [kindOf, kindOf, intern_of_find? hkind, intern_of_find? (find?_of_grown h hkind)]

def spell (t : KindTable) (c : Content) : Option String × Option String :=
  (t.name? c.kind, c.label)

end KindTable

namespace Literal

/-- Outside labels, the text opens `n` parentheses, and it does not end within a label. -/
def Opens (cs : List Char) (n : Nat) : Prop :=
  ∀ s : Tally, s.place = .plain → s.closed ≤ s.opened →
    ∃ u, Scans 0 s cs u ∧ u.place = .plain ∧ u.opened = s.opened + n

namespace Opens

variable {as bs cs : List Char} {m n pos : Nat}

theorem nil : Opens [] 0 := fun s hs hlow => ⟨s, .nil hlow, hs, rfl⟩

theorem append (h : Opens as m) (h' : Opens bs n) : Opens (as ++ bs) (m + n) := by
  intro s hs hlow
  obtain ⟨u, hu, hplain, hopened⟩ := h s hs hlow
  have hlow' : u.closed ≤ u.opened := by
    have habove := hu.above (List.prefix_refl as)
    rwa [hu.scan_eq] at habove
  obtain ⟨v, hv, hplain', hopened'⟩ := h' u hplain hlow'
  exact ⟨v, hu.append hv, hplain', by omega⟩

theorem blanks (h : Blanks cs) : Opens cs 0 :=
  fun s hs hlow => ⟨s, .blanks hs hlow h, hs, rfl⟩

theorem label {label? : Option String} (h : Label cs label?) : Opens cs 0 :=
  fun s hs hlow => ⟨s, .label hs hlow h, hs, rfl⟩

theorem stem {name : String} {rest : List Char} (h : Stem cs name rest) : Opens cs 1 := by
  intro s hs hlow
  obtain ⟨tail, rfl⟩ := h.exists_cons
  have hstep : s.step '(' = { s with opened := s.opened + 1 } := by simp [Tally.step, hs]
  have htail : Scans 0 (s.step '(') tail (s.step '(') := by
    rw [hstep]
    exact .stem hs (Nat.le_succ_of_le hlow) h
  exact ⟨s.step '(', .cons hlow htail, by rw [hstep]; exact hs, by rw [hstep]⟩

theorem phrase {t : Rose Entry} (h : Phrase pos cs t) : Opens cs t.size :=
  fun s hs hlow => ⟨s.both t.size, h.scans hs hlow, hs, rfl⟩

end Opens

mutual
/-- The text of each node stands within the text of the nodes around it, at the offset that the
tree says, and after as many parentheses as there are nodes before it. -/
theorem Phrase.exists_part {s : Rose Entry} : ∀ {pos k : Nat} {node : List Char} {t : Rose Entry},
    Phrase pos node t → t.subtrees[k]? = some s → ∃ before slice after,
      node = before ++ slice ++ after ∧ Phrase (pos + byteSize before) slice s ∧ Opens before k
  | pos, k, _, _, @Phrase.intro _ stem label kids trail name label? ts hstem hlabel hkids htrail,
      hk => by
      have hnode := Phrase.intro hstem hlabel hkids htrail
      rw [Rose.subtrees] at hk
      cases k with
      | zero =>
          cases hk
          exact ⟨[], _, [], by simp, hnode, .nil⟩
      | succ k =>
          rw [List.getElem?_cons_succ] at hk
          obtain ⟨before, slice, after, rfl, hslice, hbefore⟩ := hkids.exists_part hk
          have hopens := ((Opens.stem hstem).append (.label hlabel)).append hbefore
          rw [Nat.add_zero, Nat.add_comm] at hopens
          rw [Nat.add_assoc, ← byteSize_append] at hslice
          exact ⟨stem ++ label ++ before, slice, after ++ trail ++ [')'], by simp, hslice, hopens⟩
theorem Phrases.exists_part {s : Rose Entry} : ∀ {pos k : Nat} {kids : List Char}
    {ts : List (Rose Entry)}, Phrases pos kids ts → (Rose.subtreesAll ts)[k]? = some s →
      ∃ before slice after, kids = before ++ slice ++ after ∧
        Phrase (pos + byteSize before) slice s ∧ Opens before k
  | _, _, _, _, .nil, hk => by cases hk
  | pos, k, _, _, @Phrases.cons _ gap node rest t ts hgap hnode hrest, hk => by
      rw [Rose.subtreesAll, List.getElem?_append, Rose.length_subtrees] at hk
      split at hk
      · obtain ⟨before, slice, after, rfl, hslice, hbefore⟩ := hnode.exists_part hk
        have hopens := (Opens.blanks hgap).append hbefore
        rw [Nat.zero_add] at hopens
        rw [Nat.add_assoc, ← byteSize_append] at hslice
        exact ⟨gap ++ before, slice, after ++ rest, by simp, hslice, hopens⟩
      · obtain ⟨before, slice, after, rfl, hslice, hbefore⟩ := hrest.exists_part hk
        have hopens := ((Opens.blanks hgap).append (.phrase hnode)).append hbefore
        rw [Nat.zero_add, Nat.add_sub_cancel' (Nat.le_of_not_lt ‹_›)] at hopens
        rw [Nat.add_assoc, ← byteSize_append] at hslice
        exact ⟨gap ++ node ++ before, slice, after, by simp, hslice, hopens⟩
end

theorem Document.exists_part {text : List Char} {k : Nat} {s t : Rose Entry}
    (h : Document text t) (hk : t.subtrees[k]? = some s) : ∃ before slice after,
      text = before ++ slice ++ after ∧ Phrase (byteSize before) slice s ∧ Opens before k := by
  cases h with
  | @intro lead node trail _ hlead hnode htrail =>
      obtain ⟨before, slice, after, rfl, hslice, hbefore⟩ := hnode.exists_part hk
      have hopens := (Opens.blanks hlead).append hbefore
      rw [Nat.zero_add] at hopens
      rw [← byteSize_append] at hslice
      exact ⟨lead ++ before, slice, after ++ trail, by simp, hslice, hopens⟩

mutual
theorem Phrase.exists_moved (pos' : Nat) : ∀ {pos : Nat} {node : List Char} {t : Rose Entry},
    Phrase pos node t → ∃ t', Phrase pos' node t' ∧ t'.map Entry.said = t.map Entry.said
  | _, _, _, @Phrase.intro _ stem label kids trail name label? ts hstem hlabel hkids htrail => by
      obtain ⟨ts', hkids', hts⟩ := hkids.exists_moved (pos' + byteSize (stem ++ label))
      refine ⟨_, .intro hstem hlabel hkids' htrail, ?_⟩
      rw [Rose.map_node, Rose.map_node, hts]
      rfl
theorem Phrases.exists_moved (pos' : Nat) : ∀ {pos : Nat} {kids : List Char}
    {ts : List (Rose Entry)}, Phrases pos kids ts → ∃ ts', Phrases pos' kids ts' ∧
      ts'.map (Rose.map Entry.said) = ts.map (Rose.map Entry.said)
  | _, _, _, .nil => ⟨[], .nil, rfl⟩
  | _, _, _, @Phrases.cons _ gap node rest t ts hgap hnode hrest => by
      obtain ⟨t', hnode', ht⟩ := hnode.exists_moved (pos' + byteSize gap)
      obtain ⟨ts', hrest', hts⟩ := hrest.exists_moved (pos' + byteSize (gap ++ node))
      refine ⟨t' :: ts', .cons hgap hnode' hrest', ?_⟩
      rw [List.map_cons, List.map_cons, ht, hts]
end

def Entry.stop (e : Entry) : Nat := e.pos + e.length

theorem Phrase.value_span {pos : Nat} {node : List Char} {t : Rose Entry} (h : Phrase pos node t) :
    t.value.pos = pos ∧ t.value.length = byteSize node := by
  cases h with
  | intro _ _ _ _ => exact ⟨rfl, rfl⟩

def SpansIn (first stop : Nat) (es : List Entry) : Prop :=
  (∀ e ∈ es, first ≤ e.pos ∧ e.stop ≤ stop) ∧ es.Pairwise fun d e => d.stop ≤ e.pos

theorem SpansIn.mono {first first' stop : Nat} {es : List Entry} (h : SpansIn first stop es)
    (hfirst : first' ≤ first) : SpansIn first' stop es := by
  refine ⟨?_, h.2⟩
  intro e he
  exact ⟨hfirst.trans (h.1 e he).1, (h.1 e he).2⟩

theorem Phrases.spansIn : ∀ {pos : Nat} {kids : List Char} {ts : List (Rose Entry)},
    Phrases pos kids ts → SpansIn pos (pos + byteSize kids) (ts.map Rose.value)
  | _, _, _, .nil => ⟨by simp, .nil⟩
  | pos, _, _, @Phrases.cons _ gap node rest t ts hgap hnode hrest => by
      obtain ⟨hpos, hlength⟩ := hnode.value_span
      have hstop : t.value.stop = pos + byteSize gap + byteSize node := by
        rw [Entry.stop, hpos, hlength]
      obtain ⟨hall, hpairs⟩ := hrest.spansIn
      simp only [byteSize_append] at hall ⊢
      constructor
      · intro e he
        rcases List.mem_cons.1 he with rfl | he
        · omega
        · have := hall e he
          omega
      · apply List.Pairwise.cons _ hpairs
        intro e he
        have := hall e he
        omega

theorem Phrase.exists_spansIn {pos : Nat} {node : List Char} {t : Rose Entry}
    (h : Phrase pos node t) :
    ∃ stop < pos + byteSize node, SpansIn (pos + 1) stop (t.children.map Rose.value) := by
  cases h with
  | @intro _ stem label kids trail name label? ts hstem hlabel hkids htrail =>
      obtain ⟨tail, rfl⟩ := hstem.exists_cons
      have hopen : '('.utf8Size = 1 := rfl
      have hclose : ')'.utf8Size = 1 := rfl
      have hkids := hkids.spansIn
      simp only [List.cons_append, byteSize_cons, byteSize_append, byteSize_nil, hopen, hclose]
        at hkids ⊢
      refine ⟨_, ?_, hkids.mono ?_⟩ <;> omega

theorem SpansIn.children {kinds : KindTable} {f : Forest} {n : NodeId} {first stop : Nat}
    {es : List Entry} (h : SpansIn first stop es)
    (hes : (f.childrenOf n).map f.infoOf = es.map (Entry.info kinds)) :
    (∀ c ∈ f.childrenOf n, first ≤ (f.infoOf c).pos ∧ f.spanEnd c ≤ stop) ∧
      (f.childrenOf n).Pairwise fun c d => f.spanEnd c ≤ (f.infoOf d).pos := by
  constructor
  · intro c hc
    have hmem : f.infoOf c ∈ es.map (Entry.info kinds) := hes ▸ List.mem_map_of_mem hc
    obtain ⟨e, he, hinfo⟩ := List.mem_map.1 hmem
    rw [Forest.spanEnd, ← hinfo]
    exact h.1 e he
  · have hpairs : (es.map (Entry.info kinds)).Pairwise fun x y => x.pos + x.length ≤ y.pos :=
      List.pairwise_map.2 h.2
    rw [← hes] at hpairs
    exact List.pairwise_map.1 hpairs

theorem names_eq_of_said {s t : Rose Entry} (h : s.map Entry.said = t.map Entry.said) :
    names s = names t := by
  have hnames (u : Rose Entry) : names u = (u.map Entry.said).preorder.map Prod.fst := by
    rw [Rose.preorder_map, List.map_map]
    rfl
  rw [hnames, h, ← hnames]

theorem map_toContent_info (kinds : KindTable) (t : Rose Entry) :
    (t.map (Entry.info kinds)).map NodeInfo.toContent =
      (t.map Entry.said).map fun said => ⟨kinds.kindOf said.1, said.2⟩ := by
  rw [Rose.map_map, Rose.map_map]
  rfl

theorem map_spell_info {kinds : KindTable} {t : Rose Entry}
    (h : ∀ name ∈ names t, (kinds.find? name).isSome) :
    ((t.map (Entry.info kinds)).map NodeInfo.toContent).map kinds.spell =
      (t.map Entry.said).map fun said => (some said.1, said.2) := by
  rw [Rose.map_map, Rose.map_map, Rose.map_map]
  apply Rose.map_congr
  intro e he
  obtain ⟨kind, hkind⟩ := Option.isSome_iff_exists.1 (h e.name (List.mem_map_of_mem he))
  have hname : kinds.name? (kinds.kindOf e.name) = some e.name := by
    rw [KindTable.kindOf, KindTable.intern_of_find? hkind]
    exact KindTable.name?_of_find? hkind
  simp [KindTable.spell, Entry.info, Entry.said, hname]

/-- The text of a node, read with any table, gives the same names and labels again, and with a
table that knows its names also the same kinds. -/
theorem Phrase.reread [TokenHash] {kinds : KindTable} {pos : Nat} {slice : String} {s : Rose Entry}
    (h : Phrase pos slice.toList s) (hnames : ∀ name ∈ names s, (kinds.find? name).isSome)
    (more : KindTable) :
    ∃ more' u, Literal.read more slice = (more', .ok u) ∧
      (u.forest.contentTree u.root).map more'.spell =
        ((s.map (Entry.info kinds)).map NodeInfo.toContent).map kinds.spell ∧
      (kinds.Grown more → more' = more ∧ u.forest.contentTree u.root =
        (s.map (Entry.info kinds)).map NodeInfo.toContent) := by
  obtain ⟨s', hslice, hsaid⟩ := h.exists_moved 0
  have hdoc : Document slice.toList s' := by simpa using Document.intro .nil hslice .nil
  have hnames' : names s' = names s := names_eq_of_said hsaid
  let more' := more.internAll (names s')
  have hcontent : (Tree.ofRose (s'.map (Entry.info more'))).forest.contentTree 1 =
      (s'.map (Entry.info more')).map NodeInfo.toContent :=
    (Forest.laid_ofRose _).contentTree Nat.one_pos
  refine ⟨more', _, hdoc.read more, ?_, ?_⟩
  · calc (Forest.contentTree _ 1).map more'.spell
        = (s'.map Entry.said).map fun said => (some said.1, said.2) := by
          rw [hcontent]
          exact map_spell_info fun name hname => more.isSome_find?_internAll hname
      _ = ((s.map (Entry.info kinds)).map NodeInfo.toContent).map kinds.spell := by
          rw [hsaid, map_spell_info hnames]
  · intro hgrown
    have hsame : more' = more := by
      apply KindTable.internAll_of_find?
      intro name hname
      exact KindTable.isSome_find?_of_grown hgrown (hnames name (hnames' ▸ hname))
    refine ⟨hsame, hcontent.trans ?_⟩
    rw [hsame, map_toContent_info, map_toContent_info, hsaid, Rose.map_map, Rose.map_map]
    apply Rose.map_congr
    intro e he
    have hkind : more.kindOf e.name = kinds.kindOf e.name :=
      KindTable.kindOf_eq_of_grown hgrown (hnames _ (List.mem_map_of_mem he))
    simp [Entry.said, hkind]

/-- Node `n` of a tree that was read comes from `slice`, of which the derivation is a part of that
of the text. -/
structure Sourced (kinds : KindTable) (text : String) (t : Tree) (n : NodeId)
    (before slice after : String) (s : Rose Entry) : Prop where
  text_eq : text = before ++ slice ++ after
  phrase : Phrase before.utf8ByteSize slice.toList s
  opens : ∃ k, n = 1 + k ∧ Opens before.toList k
  known : ∀ name ∈ names s, (kinds.find? name).isSome
  laid : ∃ above, t.forest.Laid above n (s.map (Entry.info kinds))

theorem exists_sourced [TokenHash] {kinds kinds' : KindTable} {text : String} {t : Tree}
    (h : read kinds text = (kinds', .ok t)) {n : NodeId} (hn : t.forest.has n) :
    ∃ before slice after s, Sourced kinds' text t n before slice after s := by
  obtain ⟨tree, hdoc, hkinds, rfl⟩ := exists_document_of_read h
  obtain ⟨hpos, hle⟩ := (Forest.has_iff _ n).1 hn
  obtain ⟨k, rfl⟩ : ∃ k, n = 1 + k := Nat.exists_eq_add_of_le hpos
  have hsize : (Forest.ofRose (tree.map (Entry.info kinds'))).size = tree.subtrees.length := by
    rw [Forest.size_ofRose, ← Rose.length_subtrees, Rose.subtrees_map, List.length_map]
  have hk : k < tree.subtrees.length := by
    rw [← hsize]
    exact Nat.lt_of_lt_of_le (Nat.lt_add_of_pos_left Nat.one_pos) hle
  have hs := List.getElem?_eq_getElem hk
  obtain ⟨before, slice, after, htext, hslice, hopens⟩ := hdoc.exists_part hs
  refine ⟨String.ofList before, String.ofList slice, String.ofList after, tree.subtrees[k], ?_⟩
  constructor
  case text_eq => rw [← String.ofList_append, ← String.ofList_append, ← htext, String.ofList_toList]
  case phrase => rwa [utf8ByteSize_ofList, String.toList_ofList]
  case opens => exact ⟨k, rfl, by rwa [String.toList_ofList]⟩
  case known =>
    intro name hname
    rw [hkinds]
    apply kinds.isSome_find?_internAll
    exact List.map_subset _ (Rose.preorder_subset_of_mem_subtrees (List.mem_of_getElem? hs)) hname
  case laid =>
    apply (Forest.laid_ofRose _).exists_part
    rw [Rose.subtrees_map, List.getElem?_map, hs]
    rfl

/-- What the span of node `n` cuts out of a text, between what stands before and after it. -/
structure Excerpt [TokenHash] (kinds : KindTable) (text : String) (t : Tree) (n : NodeId)
    (before slice after : String) : Prop where
  text_eq : text = before ++ slice ++ after
  pos : before.utf8ByteSize = (t.forest.infoOf n).pos
  length : slice.utf8ByteSize = (t.forest.infoOf n).length
  /-- The parenthesis of node `n` is number `n` of those outside labels. -/
  own : (Tally.scan {} before.toList).opened + 1 = n ∧
    (Tally.scan {} before.toList).place = .plain
  bracketed : Bracketed slice.toList
  /-- Read on its own, the text gives the same tree: the same names with any table, and the same
  kinds if the table already knows the names. -/
  reread : ∀ more, ∃ more' u, read more slice = (more', .ok u) ∧
    (u.forest.contentTree u.root).map more'.spell = (t.forest.contentTree n).map kinds.spell ∧
    (kinds.Grown more → more' = more ∧ u.forest.contentTree u.root = t.forest.contentTree n)

namespace Sourced

variable {kinds : KindTable} {text before slice after : String} {t : Tree} {n : NodeId}
  {s : Rose Entry}

theorem infoOf_eq (h : Sourced kinds text t n before slice after s) :
    t.forest.infoOf n = s.value.info kinds := by
  obtain ⟨above, hlaid⟩ := h.laid
  rw [hlaid.infoOf, Rose.value_map]

theorem pos_eq (h : Sourced kinds text t n before slice after s) :
    (t.forest.infoOf n).pos = before.utf8ByteSize := by
  rw [h.infoOf_eq]
  exact h.phrase.value_span.1

theorem length_eq (h : Sourced kinds text t n before slice after s) :
    (t.forest.infoOf n).length = slice.utf8ByteSize := by
  rw [h.infoOf_eq, ← String.ofList_toList (s := slice), utf8ByteSize_ofList]
  exact h.phrase.value_span.2

theorem excerpt [TokenHash] (h : Sourced kinds text t n before slice after s) :
    Excerpt kinds text t n before slice after where
  text_eq := h.text_eq
  pos := h.pos_eq.symm
  length := h.length_eq.symm
  own := by
    obtain ⟨k, rfl, hopens⟩ := h.opens
    obtain ⟨u, hscan, hplain, hopened⟩ := hopens {} rfl (Nat.le_refl 0)
    rw [hscan.scan_eq]
    exact ⟨by simp [hopened, Nat.add_comm], hplain⟩
  bracketed := h.phrase.bracketed
  reread := by
    obtain ⟨above, hlaid⟩ := h.laid
    obtain ⟨k, rfl, -⟩ := h.opens
    rw [hlaid.contentTree (Nat.add_pos_left Nat.one_pos k)]
    exact h.phrase.reread h.known

theorem children (h : Sourced kinds text t n before slice after s) :
    (∀ c ∈ t.forest.childrenOf n, (t.forest.infoOf n).pos < (t.forest.infoOf c).pos ∧
        t.forest.spanEnd c < t.forest.spanEnd n) ∧
      (t.forest.childrenOf n).Pairwise fun c d =>
        t.forest.spanEnd c ≤ (t.forest.infoOf d).pos := by
  obtain ⟨above, hlaid⟩ := h.laid
  have hkids := hlaid.map_infoOf_children
  rw [Rose.map_value_children] at hkids
  obtain ⟨stop, hstop, hspans⟩ := h.phrase.exists_spansIn
  obtain ⟨hinside, hapart⟩ := hspans.children hkids
  refine ⟨?_, hapart⟩
  intro c hc
  obtain ⟨hfirst, hlast⟩ := hinside c hc
  rw [← utf8ByteSize_ofList, String.ofList_toList] at hstop
  have hend : t.forest.spanEnd n = before.utf8ByteSize + slice.utf8ByteSize := by
    rw [Forest.spanEnd, h.pos_eq, h.length_eq]
  rw [h.pos_eq, hend]
  exact ⟨hfirst, Nat.lt_of_le_of_lt hlast hstop⟩

end Sourced

/-- The span of every node that is read cuts out the text of that node. Children lie strictly
inside, in their order, and do not overlap. -/
theorem read_spans [TokenHash] {kinds kinds' : KindTable} {text : String} {t : Tree}
    (h : read kinds text = (kinds', .ok t)) {n : NodeId} (hn : t.forest.has n) :
    (∃ before slice after, Excerpt kinds' text t n before slice after) ∧
      (∀ c ∈ t.forest.childrenOf n, (t.forest.infoOf n).pos < (t.forest.infoOf c).pos ∧
        t.forest.spanEnd c < t.forest.spanEnd n) ∧
      (t.forest.childrenOf n).Pairwise fun c d =>
        t.forest.spanEnd c ≤ (t.forest.infoOf d).pos := by
  obtain ⟨before, slice, after, s, hsourced⟩ := exists_sourced h hn
  exact ⟨⟨before, slice, after, hsourced.excerpt⟩, hsourced.children⟩

def accents : String := " (é \"a)\\\"(\" (b \"\") (ü))"

def accentsKinds : KindTable := ⟨#["é", "b", "ü"]⟩

attribute [local instance] TokenHash.constant

def accentsTree : Tree :=
  .ofRose (.node ⟨⟨.named 0, some "a)\"("⟩, 1, 24, {}⟩
    [.node ⟨⟨.named 1, some ""⟩, 13, 6, {}⟩ [], .node ⟨⟨.named 2, none⟩, 20, 4, {}⟩ []])

theorem read_spans_accents :
    read .empty accents = (accentsKinds, .ok accentsTree) ∧ accentsTree.forest.has 1 ∧
      (∃ before slice after, Excerpt accentsKinds accents accentsTree 1 before slice after) ∧
      (∀ c ∈ accentsTree.forest.childrenOf 1,
        (accentsTree.forest.infoOf 1).pos < (accentsTree.forest.infoOf c).pos ∧
          accentsTree.forest.spanEnd c < accentsTree.forest.spanEnd 1) ∧
      (accentsTree.forest.childrenOf 1).Pairwise fun c d =>
        accentsTree.forest.spanEnd c ≤ (accentsTree.forest.infoOf d).pos := by
  have hread : read .empty accents = (accentsKinds, .ok accentsTree) := by
    with_unfolding_all rfl
  have hroot : accentsTree.forest.has 1 := by decide
  exact ⟨hread, hroot, read_spans hread hroot⟩

end Literal

end TreeDelta
