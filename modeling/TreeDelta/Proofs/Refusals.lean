import TreeDelta.Proofs.Acceptance
import TreeDelta.Proofs.Lockstep

namespace TreeDelta.Literal

inductive Mode.Alike : Mode → Mode → Prop
  | refl (m : Mode) : Alike m m
  | closed (t u : Rose NodeInfo) : Alike (.closed t) (.closed u)

namespace Reader

theorem Feeds.exists_react {r s : Reader} {c : Char} {cs : List Char} (h : r.Feeds (c :: cs) s) :
    ∃ next, r.react c = .ok next ∧ Feeds { next with offset := r.offset + c.utf8Size } cs s := by
  rw [Feeds, feed, step] at h
  cases hreact : r.react c with
  | error e =>
      rw [hreact] at h
      cases h
  | ok next =>
      rw [hreact] at h
      exact ⟨next, rfl, h⟩

structure Alike (r s : Reader) : Prop where
  offset : r.offset = s.offset
  mode : r.mode.Alike s.mode
  depth : r.frames.length = s.frames.length

variable {r s : Reader} {c : Char}

theorem Alike.pushFrame (h : r.Alike s) (pos : Nat) (letters : List Char) :
    (r.pushFrame pos letters).Alike (s.pushFrame pos letters) :=
  ⟨h.offset, .refl .named, congrArg (· + 1) h.depth⟩

theorem Alike.setLabel (h : r.Alike s) (letters : List Char) :
    (r.setLabel letters).Alike (s.setLabel letters) := by
  obtain ⟨kinds, offset, mode, frames⟩ := r
  obtain ⟨kinds', offset', mode', frames'⟩ := s
  have hdepth : frames.length = frames'.length := h.depth
  cases frames with
  | nil =>
      obtain rfl : frames' = [] := by simpa using hdepth.symm
      exact ⟨h.offset, .refl .between, rfl⟩
  | cons f fs =>
      obtain ⟨g, gs, rfl⟩ := List.exists_cons_of_length_eq_add_one hdepth.symm
      exact ⟨h.offset, .refl .between, hdepth⟩

theorem Alike.closeFrame (h : r.Alike s) : Lockstep Alike r.closeFrame s.closeFrame := by
  obtain ⟨kinds, offset, mode, frames⟩ := r
  obtain ⟨kinds', offset', mode', frames'⟩ := s
  have hdepth : frames.length = frames'.length := h.depth
  obtain rfl : offset = offset' := h.offset
  match frames, frames', hdepth with
  | [], [], _ => exact .error _
  | [f], [f'], _ => exact .ok ⟨rfl, .closed _ _, rfl⟩
  | f :: g :: fs, f' :: g' :: fs', hdepth =>
      exact .ok ⟨rfl, .refl .between, Nat.succ.inj hdepth⟩

theorem Alike.structural (h : r.Alike s) : Lockstep Alike (r.structural c) (s.structural c) := by
  unfold Reader.structural
  rw [h.offset]
  split
  · exact .ok h
  · split
    · exact .ok ⟨rfl, .refl _, h.depth⟩
    · split
      · exact h.closeFrame
      · exact .error _

theorem Alike.afterName (h : r.Alike s) : Lockstep Alike (r.afterName c) (s.afterName c) := by
  unfold Reader.afterName
  rw [h.offset]
  split
  · exact .ok ⟨rfl, .refl _, h.depth⟩
  · exact h.structural

theorem Alike.react (h : r.Alike s) : Lockstep Alike (r.react c) (s.react c) := by
  obtain ⟨kinds, offset, mode, frames⟩ := r
  obtain ⟨kinds', offset', mode', frames'⟩ := s
  obtain rfl : offset = offset' := h.offset
  have hdepth : frames.length = frames'.length := h.depth
  have hclosed (t u : Rose NodeInfo) : Lockstep Alike
      (Reader.react ⟨kinds, offset, .closed t, frames⟩ c)
      (Reader.react ⟨kinds', offset, .closed u, frames'⟩ c) := by
    simp only [Reader.react]
    split
    · exact .ok ⟨rfl, .closed t u, hdepth⟩
    · exact .error _
  cases h.mode with
  | closed t u => exact hclosed t u
  | refl _ =>
    cases mode with
    | between => exact h.structural
    | opened pos =>
        simp only [Reader.react]
        split
        · exact .ok h
        · split
          · exact .ok ⟨rfl, .refl _, hdepth⟩
          · exact .error _
    | name pos letters =>
        simp only [Reader.react]
        split
        · exact .ok ⟨rfl, .refl _, hdepth⟩
        · exact (h.pushFrame pos letters).afterName
    | named => exact h.afterName
    | label start letters =>
        simp only [Reader.react]
        split
        · exact .ok (h.setLabel letters)
        · split
          · exact .ok ⟨rfl, .refl _, hdepth⟩
          · exact .ok ⟨rfl, .refl _, hdepth⟩
    | escape start slash letters =>
        simp only [Reader.react]
        split
        · exact .ok ⟨rfl, .refl _, hdepth⟩
        · exact .error _
    | closed t => exact hclosed t t

theorem Alike.exists_feeds {r' : Reader} {cs : List Char} (h : r.Alike s) (hfeed : r.Feeds cs r') :
    ∃ s', s.Feeds cs s' ∧ r'.Alike s' := by
  induction cs generalizing r s with
  | nil =>
      cases hfeed
      exact ⟨s, .nil s, h⟩
  | cons c cs ih =>
      obtain ⟨next, hreact, hrest⟩ := hfeed.exists_react
      obtain ⟨next', hreact', hnext⟩ := h.react.exists_ok hreact
      have hmoved : Alike { next with offset := r.offset + c.utf8Size }
          { next' with offset := s.offset + c.utf8Size } :=
        ⟨congrArg (· + c.utf8Size) h.offset, hnext.mode, hnext.depth⟩
      obtain ⟨s', hfeed', halike⟩ := ih hmoved hrest
      exact ⟨s', .cons (step_eq hreact') hfeed', halike⟩

end Reader

def Boundary (text : List Char) (offset : Nat) : Prop :=
  ∃ front, front <+: text ∧ byteSize front = offset

namespace Boundary

variable {text : List Char} {offset : Nat}

theorem whole (text : List Char) : Boundary text (byteSize text) := ⟨text, List.prefix_refl text, rfl⟩

theorem append (h : Boundary text offset) (rest : List Char) : Boundary (text ++ rest) offset := by
  obtain ⟨front, hfront, hsize⟩ := h
  exact ⟨front, hfront.trans (List.prefix_append text rest), hsize⟩

end Boundary

def Mode.marks : Mode → List Nat
  | .label start _ => [start]
  | .escape start slash _ => [start, slash]
  | _ => []

namespace Reader

variable {r s : Reader} {c : Char} {text : List Char} {e : ReadError}

/-- The reader knows how much it has read, and where the label began that it reads. -/
structure Tracks (r : Reader) (text : List Char) : Prop where
  offset : r.offset = byteSize text
  marks : ∀ mark ∈ r.mode.marks, Boundary text mark

theorem Tracks.boundary (h : r.Tracks text) {offset : Nat}
    (hoffset : offset ∈ r.offset :: r.mode.marks) : Boundary text offset := by
  rcases List.mem_cons.1 hoffset with rfl | hmark
  · rw [h.offset]
    exact .whole text
  · exact h.marks offset hmark

/-- The errors of a refused character. They name its offset, or that of a backslash before it. -/
inductive Refusal (r : Reader) (c : Char) : ReadError → Prop
  | unexpectedChar : Refusal r c (.unexpectedChar r.offset c)
  | missingKind : Refusal r c (.missingKind r.offset)
  | trailingInput : Refusal r c (.trailingInput r.offset)
  | invalidEscape {slash : Nat} (h : slash ∈ r.mode.marks) : Refusal r c (.invalidEscape slash c)

theorem outcome_closeFrame (r : Reader) :
    GivesOr (· = .unexpectedChar r.offset ')') r.closeFrame fun s => s.mode.marks = [] := by
  unfold closeFrame
  split
  · exact .inr ⟨_, rfl, rfl⟩
  · exact .ok rfl
  · exact .ok rfl

theorem outcome_structural (r : Reader) (c : Char) :
    GivesOr (· = .unexpectedChar r.offset c) (r.structural c) fun s =>
      s.mode.marks ⊆ r.mode.marks := by
  unfold structural
  split
  · exact .ok (List.Subset.refl _)
  · split
    · exact .ok (List.nil_subset _)
    · split
      · next hclose =>
          obtain rfl : c = ')' := by simpa using hclose
          apply r.outcome_closeFrame.mono
          intro s hs
          rw [hs]
          exact List.nil_subset _
      · exact .inr ⟨_, rfl, rfl⟩

theorem outcome_afterName (r : Reader) (c : Char) :
    GivesOr (· = .unexpectedChar r.offset c) (r.afterName c) fun s =>
      s.mode.marks ⊆ r.offset :: r.mode.marks := by
  unfold afterName
  split
  · exact .ok (List.cons_subset_cons _ (List.nil_subset _))
  · exact (r.outcome_structural c).mono fun s hs => List.subset_cons_of_subset _ hs

theorem marks_setLabel (r : Reader) (letters : List Char) : (r.setLabel letters).mode.marks = [] := by
  unfold setLabel
  split <;> rfl

/-- One step: the reader remembers nothing new but the present offset, or it refuses. -/
theorem outcome_react (r : Reader) (c : Char) :
    GivesOr (r.Refusal c) (r.react c) fun s => s.mode.marks ⊆ r.offset :: r.mode.marks := by
  have hunexpected (e : ReadError) (h : e = .unexpectedChar r.offset c) : r.Refusal c e :=
    h ▸ .unexpectedChar
  obtain ⟨kinds, offset, mode, frames⟩ := r
  cases mode with
  | between =>
      apply ((outcome_structural _ c).weaken hunexpected).mono
      intro s hs
      exact List.subset_cons_of_subset _ hs
  | opened pos =>
      simp only [react]
      split
      · exact .ok (List.nil_subset _)
      · split
        · exact .ok (List.nil_subset _)
        · exact .inr ⟨_, rfl, .missingKind⟩
  | name pos letters =>
      simp only [react]
      split
      · exact .ok (List.nil_subset _)
      · exact (outcome_afterName _ c).weaken hunexpected
  | named => exact (outcome_afterName _ c).weaken hunexpected
  | label start letters =>
      simp only [react]
      split
      · apply GivesOr.ok
        rw [marks_setLabel]
        exact List.nil_subset _
      · split
        · exact .ok (by simp [Mode.marks])
        · exact .ok (by simp [Mode.marks])
  | escape start slash letters =>
      simp only [react]
      split
      · exact .ok (by simp [Mode.marks])
      · exact .inr ⟨_, rfl, .invalidEscape (by simp [Mode.marks])⟩
  | closed t =>
      simp only [react]
      split
      · exact .ok (List.nil_subset _)
      · exact .inr ⟨_, rfl, .trailingInput⟩

theorem marks_react (h : r.react c = .ok s) : s.mode.marks ⊆ r.offset :: r.mode.marks := by
  rcases r.outcome_react c with ⟨s', hs, hmarks⟩ | ⟨e, he, -⟩
  · cases h.symm.trans hs
    exact hmarks
  · cases h.symm.trans he

theorem refusal_of_react (h : r.react c = .error e) : r.Refusal c e := by
  rcases r.outcome_react c with ⟨s, hs, -⟩ | ⟨e', he, hrefusal⟩
  · cases h.symm.trans hs
  · cases h.symm.trans he
    exact hrefusal

theorem tracks_feed {cs : List Char} (h : r.Tracks text) (hfeed : r.Feeds cs s) :
    s.Tracks (text ++ cs) := by
  induction cs generalizing r text with
  | nil =>
      cases hfeed
      simpa using h
  | cons c cs ih =>
      obtain ⟨next, hreact, hrest⟩ := hfeed.exists_react
      have hnext : Tracks { next with offset := r.offset + c.utf8Size } (text ++ [c]) := by
        constructor
        · simp [h.offset]
        · intro mark hmark
          rcases List.mem_cons.1 (marks_react hreact hmark) with rfl | hmark
          · rw [h.offset]
            exact (Boundary.whole text).append [c]
          · exact (h.marks mark hmark).append [c]
      simpa using ih hnext hrest

theorem exists_of_feed_error {cs : List Char} (h : r.feed cs = (s, some e)) :
    ∃ front c rest, cs = front ++ c :: rest ∧ r.Feeds front s ∧ s.react c = .error e := by
  induction cs generalizing r with
  | nil => cases h
  | cons c cs ih =>
      rw [feed, step] at h
      cases hreact : r.react c with
      | error e' =>
          rw [hreact] at h
          cases h
          exact ⟨[], c, cs, rfl, .nil _, hreact⟩
      | ok next =>
          rw [hreact] at h
          obtain ⟨front, d, rest, rfl, hfeed, herror⟩ := ih h
          exact ⟨c :: front, d, rest, rfl, .cons (step_eq hreact) hfeed, herror⟩

end Reader

end TreeDelta.Literal
