import TreeDelta.Literal.Writer
import TreeDelta.Proofs.Comparison
import TreeDelta.Proofs.Layout
import TreeDelta.Proofs.ReadDerivations
import TreeDelta.Proofs.Relinking

namespace TreeDelta

namespace Literal

/-- A name that can be read: not empty, without blanks, parentheses and quotes. -/
def Legible (word : String) : Prop := word ≠ "" ∧ ∀ c ∈ word.toList, NameChar c

-- `List.decidableBAll` by name: there is also an instance that tries every character there is.
instance (word : String) : Decidable (Legible word) :=
  @instDecidableAnd _ _ _ (List.decidableBAll NameChar word.toList)

theorem run_escapeChar (letters : List Char) : Run (letters.flatMap escapeChar) letters := by
  induction letters with
  | nil => exact .nil
  | cons c letters ih =>
      rw [List.flatMap_cons]
      unfold escapeChar
      split
      · exact .escape .quote ih
      · exact .escape .backslash ih
      · exact .escape .newline ih
      · exact .escape .tab ih
      · next hquote hslash _ _ => exact .plain hquote hslash ih

theorem label_writeLabel (label : String) : Label (writeLabel label) (some label) := by
  simpa [writeLabel] using Label.quoted (run_escapeChar label.toList)

def Entry.said (e : Entry) : String × Option String := (e.name, e.label)

variable {name : Kind → String}

theorem stem_name {word : String} {gap rest : List Char} (hword : Legible word) (hgap : Blanks gap)
    (hrest : Stops rest) : Stem ('(' :: (word.toList ++ gap)) word rest := by
  have hw : Word word.toList (gap ++ rest) := by
    refine ⟨?_, hword.2, hgap.stops_append hrest⟩
    intro hnil
    exact hword.1 (String.toList_eq_nil_iff.1 hnil)
  simpa using Stem.intro .nil hw hgap

theorem exists_stem_label {c : Content} {rest : List Char} (hword : Legible (name c.kind))
    (hrest : Stops rest) :
    ∃ stem label, '(' :: writeContent name c = stem ++ label ∧
      Stem stem (name c.kind) (label ++ rest) ∧ Label label c.label := by
  rw [writeContent]
  cases c.label with
  | none => exact ⟨_, [], by simp, stem_name hword .nil hrest, .absent⟩
  | some label =>
      have hlabel := label_writeLabel label
      have hgap : Blanks [' '] := .singleton (by decide)
      exact ⟨_, _, by simp, stem_name hword hgap (hlabel.stops_append hrest), hlabel⟩

theorem stops_writeAllOnto (Ts : List (Rose Content)) : Stops (writeAllOnto name Ts [')']) := by
  cases Ts with
  | nil => exact stops_of_not_nameChar not_nameChar_close
  | cons T Ts => exact stops_of_not_nameChar fun h => h.1 (by decide)

mutual
theorem exists_phrase_write : ∀ (T : Rose Content) (pos : Nat),
    (∀ c ∈ T.preorder, Legible (name c.kind)) →
      ∃ t, Phrase pos (writeOnto name T []) t ∧
        t.map Entry.said = T.map fun c => (name c.kind, c.label)
  | .node c cs, pos, h => by
      rw [Rose.preorder_node] at h
      obtain ⟨stem, label, hhead, hstem, hlabel⟩ :=
        exists_stem_label (h c (by simp)) (stops_writeAllOnto cs)
      obtain ⟨ts, hkids, hts⟩ := exists_phrases_write cs (pos + byteSize (stem ++ label))
        fun T hT d hd => h d (List.mem_cons_of_mem _ (List.mem_flatMap.2 ⟨T, hT, hd⟩))
      have htext : writeOnto name (.node c cs) [] =
          stem ++ label ++ writeAllOnto name cs [] ++ [] ++ [')'] := by
        rw [writeOnto, writeAllOnto_eq, ← List.cons_append, hhead]
        simp
      rw [writeAllOnto_eq] at hstem
      rw [htext]
      refine ⟨_, .intro (by simpa using hstem) hlabel hkids .nil, ?_⟩
      rw [Rose.map_node, Rose.map_node, hts]
      rfl
theorem exists_phrases_write : ∀ (Ts : List (Rose Content)) (pos : Nat),
    (∀ T ∈ Ts, ∀ c ∈ T.preorder, Legible (name c.kind)) →
      ∃ ts, Phrases pos (writeAllOnto name Ts []) ts ∧
        ts.map (Rose.map Entry.said) = Ts.map (Rose.map fun c => (name c.kind, c.label))
  | [], pos, _ => ⟨[], .nil, rfl⟩
  | T :: Ts, pos, h => by
      obtain ⟨t, hnode, ht⟩ := exists_phrase_write T (pos + byteSize [' ']) (h T (by simp))
      obtain ⟨ts, hrest, hts⟩ := exists_phrases_write Ts
        (pos + byteSize ([' '] ++ writeOnto name T [])) fun U hU => h U (by simp [hU])
      have hgap : Blanks [' '] := .singleton (by decide)
      have htext : writeAllOnto name (T :: Ts) [] =
          [' '] ++ writeOnto name T [] ++ writeAllOnto name Ts [] := by
        rw [writeAllOnto, writeOnto_eq]
        simp
      rw [htext]
      refine ⟨_, .cons hgap hnode hrest, ?_⟩
      rw [List.map_cons, List.map_cons, ht, hts]
end

theorem exists_document_write {T : Rose Content} (h : ∀ c ∈ T.preorder, Legible (name c.kind)) :
    ∃ t, Document (writeOnto name T []) t ∧
      t.map Entry.said = T.map fun c => (name c.kind, c.label) := by
  obtain ⟨t, hnode, ht⟩ := exists_phrase_write T 0 h
  exact ⟨t, by simpa using Document.intro .nil hnode .nil, ht⟩

/-- The kind has a name in the table, and the name can be read. -/
def Spelled (kinds : KindTable) (kind : Kind) : Prop :=
  ∃ word, kinds.name? kind = some word ∧ Legible word

instance (kinds : KindTable) (kind : Kind) : Decidable (Spelled kinds kind) :=
  inferInstanceAs (Decidable (∃ word ∈ kinds.name? kind, Legible word))

variable {kinds : KindTable} {kind : Kind} {T : Rose Content}

theorem Spelled.find?_describe (h : Spelled kinds kind) (hkinds : kinds.Distinct) :
    kinds.find? (kinds.describe kind) = some kind := by
  obtain ⟨word, hword, -⟩ := h
  rw [KindTable.describe, hword]
  exact hkinds.find? hword

theorem Spelled.legible_describe (h : Spelled kinds kind) : Legible (kinds.describe kind) := by
  obtain ⟨word, hword, hlegible⟩ := h
  rw [KindTable.describe, hword]
  exact hlegible

theorem names_of_said {t : Rose Entry} (h : t.map Entry.said = T.map fun c => (name c.kind, c.label)) :
    names t = T.preorder.map fun c => name c.kind := by
  have hpre := congrArg (fun u => u.preorder.map Prod.fst) h
  simpa [names, Rose.preorder_map, Entry.said, Function.comp_def] using hpre

/-- Reading the text of a tree gives its content back, and finds every name in the table. -/
theorem exists_read_write [TokenHash] (hkinds : kinds.Distinct)
    (h : ∀ c ∈ T.preorder, Spelled kinds c.kind) :
    ∃ u : Tree, read kinds (write kinds T) = (kinds, .ok u) ∧ u.forest.contentTree u.root = T := by
  obtain ⟨t, hdoc, ht⟩ := exists_document_write fun c hc => (h c hc).legible_describe
  have htable : kinds.internAll (names t) = kinds := by
    apply KindTable.internAll_of_find?
    intro word hword
    rw [names_of_said ht] at hword
    obtain ⟨c, hc, rfl⟩ := List.mem_map.1 hword
    rw [(h c hc).find?_describe hkinds]
    rfl
  have hread : readRose kinds (write kinds T).toList = (kinds, .ok (t.map (Entry.info kinds))) := by
    rw [write, String.toList_ofList, hdoc.readRose kinds, htable]
  refine ⟨.ofRose (t.map (Entry.info kinds)), by rw [read, hread]; rfl, ?_⟩
  have hcontent : (t.map (Entry.info kinds)).map NodeInfo.toContent = T := by
    calc (t.map (Entry.info kinds)).map NodeInfo.toContent
        = (t.map Entry.said).map fun said => ⟨kinds.kindOf said.1, said.2⟩ := by
          rw [Rose.map_map, Rose.map_map]
          rfl
      _ = T.map id := by
          rw [ht, Rose.map_map]
          apply Rose.map_congr
          intro c hc
          have hkind : kinds.kindOf (kinds.describe c.kind) = c.kind := by
            rw [KindTable.kindOf, KindTable.intern_of_find? ((h c hc).find?_describe hkinds)]
          simp [hkind]
      _ = T := Rose.map_id T
  calc ((Forest.ofRose _).subtree 1).map (Forest.ofRose _).contentOf
      = (((Forest.ofRose _).subtree 1).map (Forest.ofRose _).infoOf).map NodeInfo.toContent := by
        rw [Rose.map_map]
        apply Rose.map_congr
        intro id _
        exact Forest.contentOf_eq _ id
    _ = T := by rw [Forest.map_infoOf_ofRose, hcontent]

end Literal

open Literal

/-- A displayed node, read with the same table, is the same tree again: nothing new enters the
table, and it displays as before. -/
theorem read_display [TokenHash] {kinds : KindTable} {t : Tree} {id : NodeId}
    (hkinds : kinds.Distinct)
    (hid : t.forest.has id)
    (hnames : ∀ a ∈ (t.forest.subtree id).preorder, Spelled kinds (t.forest.contentOf a).kind) :
    ∃ text u, t.display kinds id = .ok text ∧ read kinds text = (kinds, .ok u) ∧
      u.forest.contentTree u.root = t.forest.contentTree id ∧ u.text kinds = text ∧
      (id = t.root → t.text kinds = text ∧ t.sameAs u) := by
  obtain ⟨n, hn⟩ := Option.isSome_iff_exists.1 hid
  have hspelled : ∀ c ∈ (t.forest.contentTree id).preorder, Spelled kinds c.kind := by
    intro c hc
    rw [Forest.contentTree, Rose.preorder_map] at hc
    obtain ⟨a, ha, rfl⟩ := List.mem_map.1 hc
    exact hnames a ha
  obtain ⟨u, hread, hcontent⟩ := exists_read_write hkinds hspelled
  refine ⟨write kinds (t.forest.contentTree id), u, ?_, hread, hcontent, ?_, ?_⟩
  · rw [Tree.display, Forest.node, hn]
    rfl
  · rw [Tree.text, hcontent]
  · rintro rfl
    exact ⟨rfl, Tree.sameAs_iff.2 hcontent.symm⟩

attribute [local instance] TokenHash.constant

def quotesTree : Tree :=
  .ofRose (.node ⟨⟨.named 0, some "a \"b\" \\ c\n\td)"⟩, 0, 0, {}⟩
    [.node ⟨⟨.named 1, some ""⟩, 0, 0, {}⟩ [], .node ⟨⟨.named 0, none⟩, 0, 0, {}⟩ []])

def quotesKinds : KindTable := KindTable.empty.internAll ["call", "x-1"]

theorem read_display_quotes :
    quotesKinds.Distinct ∧ quotesTree.forest.has 1 ∧
      (∀ a ∈ (quotesTree.forest.subtree 1).preorder,
        Spelled quotesKinds (quotesTree.forest.contentOf a).kind) ∧
      ∃ u, quotesTree.display quotesKinds 1 =
          .ok "(call \"a \\\"b\\\" \\\\ c\\n\\td)\" (x-1 \"\") (call))" ∧
        read quotesKinds "(call \"a \\\"b\\\" \\\\ c\\n\\td)\" (x-1 \"\") (call))" =
          (quotesKinds, .ok u) ∧
        u.forest.contentTree u.root = quotesTree.forest.contentTree 1 ∧ quotesTree.sameAs u := by
  have hkinds : quotesKinds.Distinct := KindTable.distinct_internAll KindTable.distinct_empty _
  have hid : quotesTree.forest.has 1 := by decide
  have hnames : ∀ a ∈ (quotesTree.forest.subtree 1).preorder,
      Spelled quotesKinds (quotesTree.forest.contentOf a).kind := by decide +kernel
  have htext : quotesTree.display quotesKinds 1 =
      .ok "(call \"a \\\"b\\\" \\\\ c\\n\\td)\" (x-1 \"\") (call))" := by decide +kernel
  obtain ⟨text, u, hdisplay, hread, hcontent, -, hroot⟩ := read_display hkinds hid hnames
  cases htext.symm.trans hdisplay
  exact ⟨hkinds, hid, hnames, u, htext, hread, hcontent, (hroot rfl).2⟩

end TreeDelta
