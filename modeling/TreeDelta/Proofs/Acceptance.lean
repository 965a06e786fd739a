import TreeDelta.Proofs.Layout
import TreeDelta.Proofs.ReadDerivations

namespace TreeDelta.Literal

/-- A document up to a place where a node may start or end, with the number of its open nodes. -/
inductive Open : Nat → List Char → Prop
  | start {lead : List Char} (hlead : Blanks lead) : Open 0 lead
  | node {n : Nat} {outer stem label kids trail : List Char} {name : String}
      {label? : Option String} {ts : List (Rose Entry)} (houter : Open n outer)
      (hstem : Stem stem name []) (hlabel : Label label label?)
      (hkids : Phrases (byteSize outer + byteSize (stem ++ label)) kids ts)
      (htrail : Blanks trail) : Open (n + 1) (outer ++ (stem ++ label ++ kids ++ trail))

namespace Open

variable {n : Nat} {text outer node : List Char} {t : Rose Entry} {c : Char}

theorem blank (h : Open n text) (hc : Text.isBlank c) : Open n (text ++ [c]) := by
  cases h with
  | start hlead => exact .start (hlead.append (.singleton hc))
  | node houter hstem hlabel hkids htrail =>
      simpa using Open.node houter hstem hlabel hkids (htrail.append (.singleton hc))

theorem stem {stem : List Char} {name : String} (h : Open n outer) (hstem : Stem stem name []) :
    Open (n + 1) (outer ++ stem) := by
  simpa using Open.node h hstem .absent .nil .nil

theorem child (h : Open (n + 1) outer) (hnode : Phrase (byteSize outer) node t) :
    Open (n + 1) (outer ++ node) := by
  cases h with
  | @node _ outer stem label kids trail name label? ts houter hstem hlabel hkids htrail =>
      have hlast : Phrases (byteSize outer + byteSize (stem ++ label) + byteSize kids)
          (trail ++ node ++ []) [t] := by
        refine .cons htrail ?_ .nil
        simpa [Nat.add_assoc] using hnode
      simpa using Open.node houter hstem hlabel (hkids.append hlast) .nil

theorem exists_phrase (h : Open (n + 1) text) :
    ∃ outer node t, text ++ [')'] = outer ++ node ∧ Open n outer ∧ Phrase (byteSize outer) node t := by
  cases h with
  | @node _ outer stem label kids trail name label? ts houter hstem hlabel hkids htrail =>
      have hclose : Stops [')'] := stops_of_not_nameChar not_nameChar_close
      have hstops := hlabel.stops_append (hkids.stops_append (htrail.stops_append hclose))
      have hfollowed := hstem.followed hstops
      simp only [← List.append_assoc] at hfollowed
      exact ⟨outer, _, _, by simp, houter, .intro hfollowed hlabel hkids htrail⟩

end Open

theorem Stem.blank {stem : List Char} {name : String} {c : Char} (h : Stem stem name [])
    (hc : Text.isBlank c) : Stem (stem ++ [c]) name [] := by
  cases h with
  | @intro lead word gap _ hlead hword hgap =>
      have hgap' : Blanks (gap ++ [c]) := hgap.append (.singleton hc)
      have hword' : Word word (gap ++ [c] ++ []) := by
        refine ⟨hword.nonempty, hword.letters, hgap'.stops_append ?_⟩
        intro d hd
        cases hd
      simpa using Stem.intro hlead hword' hgap'

theorem Document.blank {text : List Char} {t : Rose Entry} {c : Char} (h : Document text t)
    (hc : Text.isBlank c) : Document (text ++ [c]) t := by
  cases h with
  | intro hlead hnode htrail =>
      simpa using Document.intro hlead hnode (htrail.append (.singleton hc))

/-- What a reader in a given mode, with a given number of open nodes, has read. -/
inductive Reads : Mode → Nat → List Char → Prop
  | between {n : Nat} {text : List Char} (h : Open n text) : Reads .between n text
  | opened {n pos : Nat} {outer lead : List Char} (houter : Open n outer) (hlead : Blanks lead) :
      Reads (.opened pos) n (outer ++ '(' :: lead)
  | name {n pos : Nat} {outer lead letters : List Char} (houter : Open n outer)
      (hlead : Blanks lead) (hne : letters ≠ []) (hletters : ∀ c ∈ letters, NameChar c) :
      Reads (.name pos letters) n (outer ++ '(' :: (lead ++ letters.reverse))
  | named {n : Nat} {outer stem : List Char} {name : String} (houter : Open n outer)
      (hstem : Stem stem name []) : Reads .named (n + 1) (outer ++ stem)
  | label {n start : Nat} {outer stem run letters : List Char} {name : String}
      (houter : Open n outer) (hstem : Stem stem name []) (hrun : Run run letters.reverse) :
      Reads (.label start letters) (n + 1) (outer ++ (stem ++ '"' :: run))
  | escape {n start slash : Nat} {outer stem run letters : List Char} {name : String}
      (houter : Open n outer) (hstem : Stem stem name []) (hrun : Run run letters.reverse) :
      Reads (.escape start slash letters) (n + 1) (outer ++ (stem ++ '"' :: (run ++ ['\\'])))
  | closed {u : Rose NodeInfo} {text : List Char} {t : Rose Entry} (h : Document text t) :
      Reads (.closed u) 0 text

theorem escape_of_unescape? {c d : Char} (h : unescape? c = some d) : Escape c d := by
  unfold unescape? at h
  split at h
  · cases h; exact .quote
  · cases h; exact .backslash
  · cases h; exact .newline
  · cases h; exact .tab
  · cases h

namespace Reader

variable {r s : Reader} {c : Char} {n pos : Nat} {text outer stem : List Char} {name : String}

def Holds (r : Reader) (text : List Char) : Prop := Reads r.mode r.frames.length text

theorem holds_closeFrame (h : Open r.frames.length text) (hclose : r.closeFrame = .ok s) :
    s.Holds (text ++ [')']) := by
  unfold closeFrame at hclose
  split at hclose
  · cases hclose
  · next f hf =>
      cases hclose
      rw [hf] at h
      obtain ⟨outer, node, t, heq, houter, hnode⟩ := h.exists_phrase
      cases houter with
      | start hlead =>
          rw [heq]
          exact .closed (by simpa using Document.intro hlead hnode .nil)
  · next f g fs hf =>
      cases hclose
      rw [hf] at h
      obtain ⟨outer, node, t, heq, houter, hnode⟩ := h.exists_phrase
      rw [heq]
      exact .between (houter.child hnode)

theorem structural_cases (h : r.structural c = .ok s) :
    (Text.isBlank c ∧ s = r) ∨ (c = '(' ∧ s = { r with mode := .opened r.offset }) ∨
      (c = ')' ∧ r.closeFrame = .ok s) := by
  unfold structural at h
  split at h
  · next hblank => cases h; exact .inl ⟨hblank, rfl⟩
  · split at h
    · next hopen => cases h; exact .inr (.inl ⟨by simpa using hopen, rfl⟩)
    · split at h
      · next hclose => exact .inr (.inr ⟨by simpa using hclose, h⟩)
      · cases h

theorem holds_structural (h : Open r.frames.length text) (hmode : r.mode = .between)
    (hreact : r.structural c = .ok s) : s.Holds (text ++ [c]) := by
  obtain ⟨hblank, rfl⟩ | ⟨rfl, rfl⟩ | ⟨rfl, hclose⟩ := structural_cases hreact
  · rw [Holds, hmode]
    exact .between (h.blank hblank)
  · exact .opened h .nil
  · exact holds_closeFrame h hclose

theorem holds_afterName (houter : Open n outer) (hstem : Stem stem name [])
    (hmode : r.mode = .named) (hframes : r.frames.length = n + 1)
    (hreact : r.afterName c = .ok s) : s.Holds (outer ++ stem ++ [c]) := by
  unfold afterName at hreact
  split at hreact
  · next hquote =>
      obtain rfl : c = '"' := by simpa using hquote
      cases hreact
      rw [Holds, hframes, List.append_assoc]
      exact .label houter hstem .nil
  · have h : Open r.frames.length (outer ++ stem) := hframes ▸ houter.stem hstem
    obtain ⟨hblank, rfl⟩ | ⟨rfl, rfl⟩ | ⟨rfl, hclose⟩ := structural_cases hreact
    · rw [Holds, hmode, hframes, List.append_assoc]
      exact .named houter (hstem.blank hblank)
    · exact .opened h .nil
    · exact holds_closeFrame h hclose

variable {kinds : KindTable} {offset start slash : Nat} {frames : List Frame}
  {lead letters run : List Char}

theorem holds_opened (houter : Open frames.length outer) (hlead : Blanks lead)
    (hreact : react ⟨kinds, offset, .opened pos, frames⟩ c = .ok s) :
    s.Holds (outer ++ '(' :: lead ++ [c]) := by
  simp only [react] at hreact
  split at hreact
  · next hblank =>
      cases hreact
      simpa [Holds] using Reads.opened houter (hlead.append (.singleton hblank))
  · split at hreact
    · next hc =>
        cases hreact
        have hletters : ∀ d ∈ [c], NameChar d := by simpa using isNameChar_iff.1 hc
        simpa [Holds] using Reads.name houter hlead (by simp) hletters
    · cases hreact

theorem holds_name (houter : Open frames.length outer) (hlead : Blanks lead) (hne : letters ≠ [])
    (hletters : ∀ c ∈ letters, NameChar c)
    (hreact : react ⟨kinds, offset, .name pos letters, frames⟩ c = .ok s) :
    s.Holds (outer ++ '(' :: (lead ++ letters.reverse) ++ [c]) := by
  simp only [react] at hreact
  split at hreact
  · next hc =>
      cases hreact
      have hletters' : ∀ d ∈ c :: letters, NameChar d := by
        simpa using ⟨isNameChar_iff.1 hc, hletters⟩
      simpa [Holds] using Reads.name houter hlead (by simp) hletters'
  · have hword : Word letters.reverse ([] ++ []) := by
      refine ⟨by simpa using hne, by simpa using hletters, ?_⟩
      intro d hd
      cases hd
    simpa using holds_afterName houter (.intro hlead hword .nil) rfl rfl hreact

theorem holds_label (houter : Open n outer) (hstem : Stem stem name [])
    (hrun : Run run letters.reverse) (hframes : frames.length = n + 1)
    (hreact : react ⟨kinds, offset, .label start letters, frames⟩ c = .ok s) :
    s.Holds (outer ++ (stem ++ '"' :: run) ++ [c]) := by
  simp only [react] at hreact
  split at hreact
  · next hquote =>
      obtain rfl : c = '"' := by simpa using hquote
      cases hreact
      have hopen := Open.node houter hstem (.quoted hrun) .nil .nil
      cases frames with
      | nil => cases hframes
      | cons f fs =>
          rw [← hframes] at hopen
          simpa [Holds, setLabel] using Reads.between hopen
  · split at hreact
    · next hslash =>
        obtain rfl : c = '\\' := by simpa using hslash
        cases hreact
        simpa [Holds, hframes] using Reads.escape houter hstem hrun
    · next hquote hslash =>
        cases hreact
        have hrun' : Run (run ++ [c]) (c :: letters).reverse := by
          rw [List.reverse_cons]
          exact hrun.append (.plain (by simpa using hquote) (by simpa using hslash) .nil)
        simpa [Holds, hframes] using Reads.label houter hstem hrun'

theorem holds_escape (houter : Open n outer) (hstem : Stem stem name [])
    (hrun : Run run letters.reverse) (hframes : frames.length = n + 1)
    (hreact : react ⟨kinds, offset, .escape start slash letters, frames⟩ c = .ok s) :
    s.Holds (outer ++ (stem ++ '"' :: (run ++ ['\\'])) ++ [c]) := by
  simp only [react] at hreact
  split at hreact
  · next d hd =>
      cases hreact
      have hrun' : Run (run ++ ['\\', c]) (d :: letters).reverse := by
        rw [List.reverse_cons]
        exact hrun.append (.escape (escape_of_unescape? hd) .nil)
      simpa [Holds, hframes] using Reads.label houter hstem hrun'
  · cases hreact

theorem holds_react (h : r.Holds text) (hreact : r.react c = .ok s) : s.Holds (text ++ [c]) := by
  obtain ⟨kinds, offset, mode, frames⟩ := r
  rw [Holds] at h
  generalize hn : frames.length = n at h
  cases h with
  | between h => exact holds_structural (hn ▸ h) rfl hreact
  | opened houter hlead => exact holds_opened (hn ▸ houter) hlead hreact
  | name houter hlead hne hletters => exact holds_name (hn ▸ houter) hlead hne hletters hreact
  | named houter hstem => exact holds_afterName houter hstem rfl hn hreact
  | label houter hstem hrun => exact holds_label houter hstem hrun hn hreact
  | escape houter hstem hrun => exact holds_escape houter hstem hrun hn hreact
  | closed h =>
      simp only [react] at hreact
      split at hreact
      · next hblank =>
          cases hreact
          rw [Holds, hn]
          exact .closed (h.blank hblank)
      · cases hreact

theorem holds_feed {cs : List Char} (h : r.Holds text) (hfeed : r.Feeds cs s) :
    s.Holds (text ++ cs) := by
  induction cs generalizing r text with
  | nil =>
      cases hfeed
      simpa using h
  | cons c cs ih =>
      rw [Feeds, feed, step] at hfeed
      cases hreact : r.react c with
      | error e =>
          rw [hreact] at hfeed
          cases hfeed
      | ok next =>
          rw [hreact] at hfeed
          have hnext : next.Holds (text ++ [c]) := holds_react h hreact
          simpa using ih (r := { next with offset := r.offset + c.utf8Size }) hnext hfeed

end Reader

open Reader

theorem exists_document_of_finish {r : Reader} {text : List Char} {kinds : KindTable}
    {u : Rose NodeInfo} (h : r.Holds text) (hfinish : r.finish = (kinds, .ok u)) :
    ∃ t, Document text t := by
  obtain ⟨kinds, offset, mode, frames⟩ := r
  rw [Reader.Holds] at h
  generalize frames.length = n at h
  cases h with
  | closed h => exact ⟨_, h⟩
  | _ => cases hfinish

theorem exists_document_of_readRose {kinds kinds' : KindTable} {text : List Char}
    {u : Rose NodeInfo} (h : readRose kinds text = (kinds', .ok u)) : ∃ t, Document text t := by
  rw [readRose] at h
  split at h
  · next r hfeed =>
      have hstart : Holds { kinds := kinds } [] := .between (.start .nil)
      exact exists_document_of_finish (holds_feed hstart hfeed) h
  · cases h

theorem Document.read [TokenHash] {text : String} {t : Rose Entry} (h : Document text.toList t)
    (kinds : KindTable) :
    Literal.read kinds text = (kinds.internAll (names t),
      .ok (.ofRose (t.map (Entry.info (kinds.internAll (names t)))))) := by
  rw [Literal.read, h.readRose kinds]
  rfl

theorem exists_document_of_read [TokenHash] {kinds kinds' : KindTable} {text : String} {t : Tree}
    (h : Literal.read kinds text = (kinds', .ok t)) :
    ∃ tree, Document text.toList tree ∧ kinds' = kinds.internAll (names tree) ∧
      t = .ofRose (tree.map (Entry.info kinds')) := by
  rcases hresult : readRose kinds text.toList with ⟨kinds'', result⟩
  rw [Literal.read, hresult] at h
  cases result with
  | error e => cases h
  | ok u =>
      obtain ⟨tree, hdoc⟩ := exists_document_of_readRose hresult
      rw [hdoc.readRose] at hresult
      cases hresult
      cases h
      exact ⟨tree, hdoc, rfl, rfl⟩

def entryOf (kinds : KindTable) (info : NodeInfo) : Option Entry :=
  (kinds.name? info.kind).map fun name => ⟨name, info.label, info.pos, info.length⟩

/-- The nodes of `t`, numbered 1, 2, 3, … in the order of their opening parentheses, are those of
the derived tree, and it has no others. -/
structure Shows (kinds : KindTable) (t : Tree) (tree : Rose Entry) : Prop where
  root : t.root = 1
  size : t.forest.size = tree.size
  order : t.preorder = List.range' 1 tree.size
  starts : (t.preorder.map fun id => (t.forest.infoOf id).pos).Pairwise (· < ·)
  entries : (t.forest.subtree t.root).map (fun id => entryOf kinds (t.forest.infoOf id)) =
    tree.map some

theorem map_entryOf_info (kinds : KindTable) (tree : Rose Entry) :
    (tree.map (Entry.info (kinds.internAll (names tree)))).map
      (entryOf (kinds.internAll (names tree))) = tree.map some := by
  rw [Rose.map_map]
  apply Rose.map_congr
  intro e he
  have hname := KindTable.name?_kindOf_of_mem (.refl (kinds.internAll (names tree)))
    (List.mem_map_of_mem he)
  simp [entryOf, Entry.info, hname]

theorem Document.shows [TokenHash] {text : List Char} {tree : Rose Entry} (h : Document text tree)
    (kinds : KindTable) :
    Shows (kinds.internAll (names tree))
      (.ofRose (tree.map (Entry.info (kinds.internAll (names tree))))) tree := by
  let u := tree.map (Entry.info (kinds.internAll (names tree)))
  have hsize : u.size = tree.size := Rose.size_map _ tree
  have hshown : ((Forest.ofRose u).subtree 1).map (Forest.ofRose u).infoOf = u :=
    Forest.map_infoOf_ofRose u
  have hpos : ((Forest.ofRose u).subtree 1).preorder.map
      (fun id => ((Forest.ofRose u).infoOf id).pos) = tree.preorder.map Entry.pos := by
    calc ((Forest.ofRose u).subtree 1).preorder.map (fun id => ((Forest.ofRose u).infoOf id).pos)
        = u.preorder.map NodeInfo.pos := by
          rw [← hshown, Rose.preorder_map, List.map_map, hshown]
          rfl
      _ = tree.preorder.map Entry.pos := by
          rw [Rose.preorder_map, List.map_map]
          rfl
  cases h with
  | intro _ hnode _ =>
      constructor
      case root => rfl
      case size => exact (Forest.size_ofRose u).trans hsize
      case order => exact (Forest.preorder_ofRose u).trans (by rw [hsize])
      case starts =>
        have hstarts := hnode.startsIn.1
        rw [← hpos] at hstarts
        exact hstarts
      case entries =>
        calc ((Forest.ofRose u).subtree 1).map
              (fun id => entryOf (kinds.internAll (names tree)) ((Forest.ofRose u).infoOf id))
            = u.map (entryOf (kinds.internAll (names tree))) := by
              rw [← hshown, Rose.map_map, hshown]
              rfl
          _ = tree.map some := map_entryOf_info kinds tree

/-- The reader accepts exactly the documents, and returns the tree that the text denotes. -/
theorem read_iff_document [TokenHash] (kinds : KindTable) (text : String) :
    ((∃ t, (read kinds text).2 = .ok t) ↔ ∃ tree, Document text.toList tree) ∧
      ∀ t tree, (read kinds text).2 = .ok t → Document text.toList tree →
        Shows (read kinds text).1 t tree := by
  have hread (tree : Rose Entry) (h : Document text.toList tree) :
      read kinds text = (kinds.internAll (names tree),
        .ok (.ofRose (tree.map (Entry.info (kinds.internAll (names tree)))))) := by
    rw [read, h.readRose kinds]
    rfl
  refine ⟨⟨?_, ?_⟩, ?_⟩
  · rintro ⟨t, ht⟩
    rcases hresult : readRose kinds text.toList with ⟨kinds', result⟩
    rw [read, hresult] at ht
    cases result with
    | error e => cases ht
    | ok u => exact exists_document_of_readRose hresult
  · rintro ⟨tree, h⟩
    exact ⟨_, by rw [hread tree h]⟩
  · intro t tree ht h
    rw [hread tree h] at ht ⊢
    cases ht
    exact h.shows kinds

end TreeDelta.Literal
