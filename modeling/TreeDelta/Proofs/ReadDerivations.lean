import TreeDelta.Proofs.Grammar
import TreeDelta.Proofs.KindTables
import TreeDelta.Proofs.Roses

namespace TreeDelta.Literal

def Entry.info (kinds : KindTable) (e : Entry) : NodeInfo :=
  ⟨⟨kinds.kindOf e.name, e.label⟩, e.pos, e.length, {}⟩

def names (t : Rose Entry) : List String := t.preorder.map Entry.name

theorem names_node (e : Entry) (ts : List (Rose Entry)) :
    names (.node e ts) = e.name :: ts.flatMap names := by
  rw [names, Rose.preorder_node, List.map_cons, List.map_flatMap]
  rfl

namespace Reader

variable {r s s' : Reader} {c : Char} {cs as bs rest : List Char} {kinds : KindTable}
  {offset pos start : Nat} {frames : List Frame}

def Feeds (r : Reader) (cs : List Char) (s : Reader) : Prop := r.feed cs = (s, none)

theorem Feeds.nil (r : Reader) : r.Feeds [] r := rfl

theorem Feeds.cons (h : r.step c = .ok s) (h' : s.Feeds cs s') : r.Feeds (c :: cs) s' := by
  rw [Feeds, feed, h]
  exact h'

theorem Feeds.feed_append (h : r.Feeds as s) (bs : List Char) : r.feed (as ++ bs) = s.feed bs := by
  rw [Reader.feed_append, h]

theorem Feeds.append (h : r.Feeds as s) (h' : s.Feeds bs s') : r.Feeds (as ++ bs) s' :=
  (h.feed_append bs).trans h'

theorem step_eq (h : r.react c = .ok s) :
    r.step c = .ok { s with offset := r.offset + c.utf8Size } := by
  rw [step, h]
  rfl

theorem Feeds.single (h : r.react c = .ok s) :
    r.Feeds [c] { s with offset := r.offset + c.utf8Size } :=
  .cons (step_eq h) (.nil _)

inductive Idle : Mode → Prop
  | between : Idle .between
  | opened (pos : Nat) : Idle (.opened pos)
  | named : Idle .named
  | closed (tree : Rose NodeInfo) : Idle (.closed tree)

theorem react_blank (hmode : Idle r.mode) (hc : Text.isBlank c) : r.react c = .ok r := by
  have hquote : c ≠ '"' := by
    rintro rfl
    exact absurd hc (by decide)
  obtain ⟨kinds, offset, mode, frames⟩ := r
  cases hmode with
  | between => simp [react, structural, hc]
  | opened pos => simp [react, hc]
  | named => simp [react, afterName, structural, hc, hquote]
  | closed tree => simp [react, hc]

theorem feeds_blanks (hmode : Idle r.mode) (h : Blanks cs) :
    r.Feeds cs { r with offset := r.offset + byteSize cs } := by
  induction cs generalizing r with
  | nil => exact .nil r
  | cons c cs ih =>
      have hstep := step_eq (react_blank hmode (h c (by simp)))
      have hrest := ih (r := { r with offset := r.offset + c.utf8Size }) hmode
        fun d hd => h d (by simp [hd])
      simpa [Nat.add_assoc] using Feeds.cons hstep hrest

inductive Waits : Mode → Prop
  | between : Waits .between
  | named : Waits .named

theorem Waits.idle {m : Mode} (h : Waits m) : Idle m := by
  cases h with
  | between => exact .between
  | named => exact .named

theorem react_open (h : Waits r.mode) : r.react '(' = .ok { r with mode := .opened r.offset } := by
  obtain ⟨kinds, offset, mode, frames⟩ := r
  cases h with
  | between => rfl
  | named => rfl

theorem react_close (h : Waits r.mode) : r.react ')' = r.closeFrame := by
  obtain ⟨kinds, offset, mode, frames⟩ := r
  cases h with
  | between => rfl
  | named => rfl

theorem feeds_letters {letters word : List Char} (hword : ∀ c ∈ word, NameChar c)
    (hmode : r.mode = .name pos letters) :
    r.Feeds word
      { r with offset := r.offset + byteSize word, mode := .name pos (word.reverse ++ letters) } := by
  induction word generalizing r letters with
  | nil =>
      rw [List.reverse_nil, List.nil_append, ← hmode]
      exact .nil r
  | cons c word ih =>
      have hc : isNameChar c := isNameChar_iff.2 (hword c (by simp))
      have hreact : r.react c = .ok { r with mode := .name pos (c :: letters) } := by
        simp [react, hmode, hc]
      have hrest := ih (fun d hd => hword d (by simp [hd])) (r := { r with
        offset := r.offset + c.utf8Size, mode := .name pos (c :: letters) }) rfl
      simpa [Nat.add_assoc] using Feeds.cons (step_eq hreact) hrest

theorem feeds_word {word : List Char} (hword : Word word rest) (hmode : r.mode = .opened pos) :
    r.Feeds word { r with offset := r.offset + byteSize word, mode := .name pos word.reverse } := by
  obtain ⟨hne, hletters, -⟩ := hword
  cases word with
  | nil => exact absurd rfl hne
  | cons c word =>
      obtain ⟨hblank, -, -, -⟩ := hletters c (by simp)
      have hc : isNameChar c := isNameChar_iff.2 (hletters c (by simp))
      have hreact : r.react c = .ok { r with mode := .name pos [c] } := by
        simp [react, hmode, hblank, hc]
      have hword : ∀ d ∈ word, NameChar d := fun d hd => hletters d (by simp [hd])
      have hrest := feeds_letters hword (r := { r with
        offset := r.offset + c.utf8Size, mode := .name pos [c] }) rfl
      simpa [Nat.add_assoc] using Feeds.cons (step_eq hreact) hrest

theorem exists_react_pushFrame (r : Reader) (pos : Nat) (letters : List Char) (hc : ¬ NameChar c) :
    ∃ s, (r.pushFrame pos letters).react c = .ok s := by
  have hcases : Text.isBlank c ∨ c = '(' ∨ c = ')' ∨ c = '"' := by
    by_contra hnot
    simp only [not_or] at hnot
    exact hc hnot
  rcases hcases with hblank | rfl | rfl | rfl
  · exact ⟨_, react_blank .named hblank⟩
  · exact ⟨_, react_open .named⟩
  · rw [react_close .named, closeFrame, pushFrame]
    cases r.frames with
    | nil => exact ⟨_, rfl⟩
    | cons f fs => exact ⟨_, rfl⟩
  · exact ⟨_, rfl⟩

theorem feed_pushFrame {letters : List Char} (hmode : r.mode = .name pos letters)
    (hrest : Stops rest) (hne : rest ≠ []) :
    r.feed rest = (r.pushFrame pos letters).feed rest := by
  cases rest with
  | nil => exact absurd rfl hne
  | cons c rest =>
      have hc : ¬ NameChar c := hrest c rfl
      have hreact : r.react c = (r.pushFrame pos letters).react c := by
        simp [react, hmode, isNameChar_iff, hc, pushFrame]
      obtain ⟨s, hs⟩ := exists_react_pushFrame r pos letters hc
      rw [feed, feed, step_eq hs, step_eq (hreact.trans hs)]
      rfl

def enter (r : Reader) (name : String) (size : Nat) : Reader :=
  ⟨(r.kinds.intern name).2, r.offset + size, .named,
    ⟨(r.kinds.intern name).1, none, r.offset, []⟩ :: r.frames⟩

theorem feed_stem {stem : List Char} {name : String} (h : Stem stem name rest) (hrest : rest ≠ [])
    (hmode : Waits r.mode) : r.feed (stem ++ rest) = (r.enter name (byteSize stem)).feed rest := by
  cases h with
  | @intro lead word gap _ hlead hword hgap =>
      let size := '('.utf8Size + byteSize lead + byteSize word
      have hopen := Feeds.single (react_open hmode)
      have hblanks := feeds_blanks (r := { r with
        offset := r.offset + '('.utf8Size, mode := .opened r.offset }) (.opened _) hlead
      have hname := feeds_word (r := { r with
        offset := r.offset + '('.utf8Size + byteSize lead, mode := .opened r.offset }) hword rfl
      have hgap := feeds_blanks (r := r.enter (String.ofList word) size) .named hgap
      have hpush : pushFrame { r with
          offset := r.offset + '('.utf8Size + byteSize lead + byteSize word,
          mode := .name r.offset word.reverse } r.offset word.reverse =
          r.enter (String.ofList word) size := by
        simp [pushFrame, enter, size, Nat.add_assoc]
      calc r.feed ('(' :: (lead ++ word ++ gap) ++ rest)
          = r.feed (['('] ++ (lead ++ (word ++ (gap ++ rest)))) := by simp
        _ = (r.enter (String.ofList word) size).feed (gap ++ rest) := by
            rw [hopen.feed_append, hblanks.feed_append, hname.feed_append,
              feed_pushFrame rfl hword.maximal (by simp [hrest]), hpush]
        _ = (r.enter (String.ofList word) (byteSize ('(' :: (lead ++ word ++ gap)))).feed rest := by
            rw [hgap.feed_append]
            simp [enter, size, Nat.add_assoc]

theorem unescape?_of_escape {d : Char} (h : Escape c d) : unescape? c = some d := by
  cases h <;> rfl

theorem feeds_run {text letters seen : List Char} (h : Run text letters)
    (hmode : r.mode = .label start seen) :
    r.Feeds text
      { r with offset := r.offset + byteSize text, mode := .label start (letters.reverse ++ seen) } := by
  induction h generalizing r seen with
  | nil =>
      rw [List.reverse_nil, List.nil_append, ← hmode]
      exact .nil r
  | @plain c text letters hquote hslash _ ih =>
      have hreact : r.react c = .ok { r with mode := .label start (c :: seen) } := by
        simp [react, hmode, hquote, hslash]
      have hrest := ih (r := { r with
        offset := r.offset + c.utf8Size, mode := .label start (c :: seen) }) rfl
      simpa [Nat.add_assoc] using Feeds.cons (step_eq hreact) hrest
  | @escape c d text letters hescape _ ih =>
      have hslash : r.react '\\' = .ok { r with mode := .escape start r.offset seen } := by
        simp [react, hmode]
      have hreact : react { r with
          offset := r.offset + '\\'.utf8Size, mode := .escape start r.offset seen } c =
          .ok { r with
            offset := r.offset + '\\'.utf8Size, mode := .label start (d :: seen) } := by
        simp [react, unescape?_of_escape hescape]
      have hrest := ih (r := { r with
        offset := r.offset + '\\'.utf8Size + c.utf8Size, mode := .label start (d :: seen) }) rfl
      simpa [Nat.add_assoc] using Feeds.cons (step_eq hslash) (.cons (step_eq hreact) hrest)

theorem feeds_label {label : List Char} {label? : Option String} (h : Label label label?)
    {f : Frame} {fs : List Frame} (hmode : r.mode = .named) (hframes : r.frames = f :: fs)
    (hf : f.label = none) :
    ∃ m, Waits m ∧ r.Feeds label
      ⟨r.kinds, r.offset + byteSize label, m, { f with label := label? } :: fs⟩ := by
  obtain ⟨kinds, offset, mode, frames⟩ := r
  obtain ⟨kind, flabel, fpos, finished⟩ := f
  subst hmode hframes hf
  cases h with
  | absent => exact ⟨.named, .named, .nil _⟩
  | @quoted text letters hrun =>
      let frames : List Frame := ⟨kind, none, fpos, finished⟩ :: fs
      have hopen : react ⟨kinds, offset, .named, frames⟩ '"' =
          .ok ⟨kinds, offset, .label offset [], frames⟩ := rfl
      have hrun := feeds_run hrun
        (r := ⟨kinds, offset + '"'.utf8Size, .label offset [], frames⟩) rfl
      have hclose : react ⟨kinds, offset + '"'.utf8Size + byteSize text,
          .label offset (letters.reverse ++ []), frames⟩ '"' =
          .ok ⟨kinds, offset + '"'.utf8Size + byteSize text, .between,
            ⟨kind, some (String.ofList letters), fpos, finished⟩ :: fs⟩ := by
        simp [react, setLabel, frames]
      refine ⟨.between, .between, ?_⟩
      simpa [Nat.add_assoc] using Feeds.cons (step_eq hopen) (hrun.append (.single hclose))

/-- The state after a whole node: it is a child of the innermost open node, or else the tree. -/
def accept (kinds : KindTable) (stop : Nat) (u : Rose NodeInfo) : List Frame → Reader
  | [] => ⟨kinds, stop, .closed u, []⟩
  | f :: fs => ⟨kinds, stop, .between, { f with finished := u :: f.finished } :: fs⟩

theorem feeds_close {f : Frame} {m : Mode} (hm : Waits m) :
    Feeds ⟨kinds, offset, m, f :: frames⟩ [')']
      (accept kinds (offset + ')'.utf8Size) (f.close (offset + ')'.utf8Size)) frames) := by
  cases frames with
  | nil =>
      apply Feeds.single (s := ⟨kinds, offset, .closed (f.close (offset + ')'.utf8Size)), []⟩)
      rw [react_close hm]
      rfl
  | cons g gs =>
      apply Feeds.single (s := ⟨kinds, offset, .between,
        { g with finished := f.close (offset + ')'.utf8Size) :: g.finished } :: gs⟩)
      rw [react_close hm]
      rfl

theorem feeds_node {stem label kids trail : List Char} {name : String} {label? : Option String}
    {us : List (Rose NodeInfo)} {kinds' : KindTable} {m : Mode}
    (hstem : Stem stem name (label ++ kids ++ trail ++ [')'])) (hlabel : Label label label?)
    (htrail : Blanks trail) (hm : Waits m)
    (hkids : ∀ m, Waits m → ∃ m', Waits m' ∧
      Feeds ⟨(kinds.intern name).2, pos + byteSize (stem ++ label), m,
          ⟨(kinds.intern name).1, label?, pos, []⟩ :: frames⟩ kids
        ⟨kinds', pos + byteSize (stem ++ label) + byteSize kids, m',
          ⟨(kinds.intern name).1, label?, pos, us.reverse⟩ :: frames⟩) :
    Feeds ⟨kinds, pos, m, frames⟩ (stem ++ label ++ kids ++ trail ++ [')'])
      (accept kinds' (pos + byteSize (stem ++ label ++ kids ++ trail ++ [')']))
        (.node ⟨⟨(kinds.intern name).1, label?⟩, pos,
          byteSize (stem ++ label ++ kids ++ trail ++ [')']), {}⟩ us) frames) := by
  let r : Reader := ⟨kinds, pos, m, frames⟩
  let f : Frame := ⟨(kinds.intern name).1, label?, pos, us.reverse⟩
  let stop := pos + byteSize (stem ++ label) + byteSize kids
  obtain ⟨m₁, hm₁, hfeedLabel⟩ :=
    feeds_label hlabel (r := r.enter name (byteSize stem)) rfl rfl rfl
  obtain ⟨m₂, hm₂, hfeedKids⟩ := hkids m₁ hm₁
  have hfeedTrail := feeds_blanks (r := ⟨kinds', stop, m₂, f :: frames⟩) hm₂.idle htrail
  have hrest : (r.enter name (byteSize stem)).Feeds (label ++ (kids ++ (trail ++ [')'])))
      (accept kinds' (stop + byteSize trail + ')'.utf8Size)
        (f.close (stop + byteSize trail + ')'.utf8Size)) frames) := by
    apply hfeedLabel.append
    have hstart : (r.enter name (byteSize stem)).offset + byteSize label =
        pos + byteSize (stem ++ label) := by
      simp [enter, r, Nat.add_assoc]
    rw [hstart]
    exact hfeedKids.append (hfeedTrail.append (feeds_close hm₂))
  have hstop : stop + byteSize trail + ')'.utf8Size =
      pos + byteSize (stem ++ label ++ kids ++ trail ++ [')']) := by
    simp [stop, Nat.add_assoc]
  rw [hstop] at hrest
  have hfeedStem := feed_stem (r := r) hstem (by simp) hm
  simp only [List.append_assoc] at hfeedStem hrest ⊢
  rw [Feeds, hfeedStem, hrest]
  simp [Frame.close, f]

end Reader

open Reader

mutual
theorem Phrase.feeds {pos : Nat} {node : List Char} {t : Rose Entry} {kinds kinds' : KindTable}
    {m : Mode} {fs : List Frame} :
    Phrase pos node t → Waits m → (kinds.internAll (names t)).Grown kinds' →
      Feeds ⟨kinds, pos, m, fs⟩ node
        (accept (kinds.internAll (names t)) (pos + byteSize node) (t.map (Entry.info kinds')) fs)
  | @Phrase.intro _ stem label kids trail name label? ts hstem hlabel hkids htrail, hm, hgrown => by
      rw [names_node, KindTable.internAll_cons] at hgrown ⊢
      have hkind : kinds'.kindOf name = (kinds.intern name).1 :=
        KindTable.kindOf_of_grown ((KindTable.grown_internAll _ _).trans hgrown)
      rw [Rose.map_node, Entry.info, hkind]
      apply feeds_node hstem hlabel htrail hm
      intro m₁ hm₁
      simpa using hkids.feeds (f := ⟨(kinds.intern name).1, label?, pos, []⟩) hm₁ hgrown
theorem Phrases.feeds {pos : Nat} {kids : List Char} {ts : List (Rose Entry)}
    {kinds kinds' : KindTable} {m : Mode} {f : Frame} {fs : List Frame} :
    Phrases pos kids ts → Waits m → (kinds.internAll (ts.flatMap names)).Grown kinds' →
      ∃ m', Waits m' ∧ Feeds ⟨kinds, pos, m, f :: fs⟩ kids
        ⟨kinds.internAll (ts.flatMap names), pos + byteSize kids, m',
          { f with finished := (ts.map (Rose.map (Entry.info kinds'))).reverse ++ f.finished } :: fs⟩
  | .nil, hm, _ => ⟨m, hm, .nil _⟩
  | @Phrases.cons _ gap node rest t ts hgap hnode hrest, hm, hgrown => by
      rw [List.flatMap_cons, KindTable.internAll_append] at hgrown ⊢
      have hfeedGap := feeds_blanks (r := ⟨kinds, pos, m, f :: fs⟩) hm.idle hgap
      have hfeedNode : Feeds ⟨kinds, pos + byteSize gap, m, f :: fs⟩ node _ :=
        hnode.feeds hm ((KindTable.grown_internAll _ _).trans hgrown)
      obtain ⟨m', hm', hfeedRest⟩ := hrest.feeds
        (f := { f with finished := t.map (Entry.info kinds') :: f.finished }) .between hgrown
      refine ⟨m', hm', ?_⟩
      rw [Nat.add_assoc, ← byteSize_append] at hfeedNode
      simpa [Nat.add_assoc] using (hfeedGap.append hfeedNode).append hfeedRest
end

/-- The reader accepts every document and returns the tree that its derivation denotes. -/
theorem Document.readRose {text : List Char} {t : Rose Entry} (h : Document text t)
    (kinds : KindTable) :
    Literal.readRose kinds text =
      (kinds.internAll (names t), .ok (t.map (Entry.info (kinds.internAll (names t))))) := by
  cases h with
  | @intro lead node trail _ hlead hnode htrail =>
      let kinds' := kinds.internAll (names t)
      let u := t.map (Entry.info kinds')
      have hfeedLead := feeds_blanks (r := { kinds := kinds }) .between hlead
      have hfeedNode : Feeds ⟨kinds, byteSize lead, .between, []⟩ node _ :=
        hnode.feeds .between (.refl kinds')
      have hfeedTrail := feeds_blanks (r := ⟨kinds', byteSize lead + byteSize node, .closed u, []⟩)
        (.closed u) htrail
      rw [Nat.zero_add] at hfeedLead
      have hall := (hfeedLead.append hfeedNode).append hfeedTrail
      rw [Literal.readRose, hall]
      rfl

end TreeDelta.Literal
