import TreeDelta.Proofs.Refusals

namespace TreeDelta.Literal

namespace ReadError

def offset? : ReadError → Option Nat
  | .empty => none
  | .unexpectedEnd offset => some offset
  | .unexpectedChar offset _ => some offset
  | .unterminatedLabel offset => some offset
  | .missingKind offset => some offset
  | .invalidEscape offset _ => some offset
  | .trailingInput offset => some offset

def Unfinished (length : Nat) : ReadError → Prop
  | .empty => True
  | .unexpectedEnd _ => True
  | .unterminatedLabel _ => True
  | .missingKind offset => offset = length
  | .unexpectedChar _ _ => False
  | .invalidEscape _ _ => False
  | .trailingInput _ => False

end ReadError

theorem stem_word {lead word : List Char} (hlead : Blanks lead) (hne : word ≠ [])
    (hword : ∀ c ∈ word, NameChar c) : Stem ('(' :: (lead ++ word)) (String.ofList word) [] := by
  have hend : Word word ([] ++ []) := by
    refine ⟨hne, hword, ?_⟩
    intro c hc
    cases hc
  simpa using Stem.intro hlead hend .nil

theorem stem_letter {lead : List Char} (hlead : Blanks lead) :
    Stem ('(' :: (lead ++ ['a'])) "a" [] := by
  have hletter : NameChar 'a' := by decide
  exact stem_word hlead (by simp) (by simpa using hletter)

theorem Open.exists_closed {n : Nat} {text : List Char} (h : Open (n + 1) text) :
    ∃ rest t, Document (text ++ rest) t := by
  induction n generalizing text with
  | zero =>
      obtain ⟨outer, node, t, heq, houter, hnode⟩ := h.exists_phrase
      cases houter with
      | start hlead =>
          refine ⟨[')'], t, ?_⟩
          rw [heq]
          simpa using Document.intro hlead hnode .nil
  | succ n ih =>
      obtain ⟨outer, node, t, heq, houter, hnode⟩ := h.exists_phrase
      obtain ⟨rest, u, hdoc⟩ := ih (houter.child hnode)
      refine ⟨')' :: rest, u, ?_⟩
      rw [← heq] at hdoc
      simpa using hdoc

theorem Open.exists_document {n : Nat} {text : List Char} (h : Open n text) :
    ∃ rest t, Document (text ++ rest) t := by
  cases n with
  | zero =>
      obtain ⟨rest, t, hdoc⟩ := (h.stem (stem_letter .nil)).exists_closed
      exact ⟨'(' :: 'a' :: rest, t, by simpa using hdoc⟩
  | succ n => exact h.exists_closed

theorem Reads.exists_document {m : Mode} {n : Nat} {text : List Char} (h : Reads m n text)
    (hm : ∀ u, m ≠ .closed u) : ∃ rest t, Document (text ++ rest) t := by
  cases h with
  | between h => exact h.exists_document
  | opened houter hlead =>
      obtain ⟨rest, t, hdoc⟩ := (houter.stem (stem_letter hlead)).exists_document
      exact ⟨'a' :: rest, t, by simpa using hdoc⟩
  | @name _ _ outer lead letters houter hlead hne hletters =>
      have hstem : Stem ('(' :: (lead ++ letters.reverse)) _ [] :=
        stem_word hlead (by simpa using hne) (by simpa using hletters)
      exact (houter.stem hstem).exists_document
  | named houter hstem => exact (houter.stem hstem).exists_document
  | label houter hstem hrun =>
      obtain ⟨rest, t, hdoc⟩ :=
        (Open.node houter hstem (.quoted hrun) .nil .nil).exists_document
      exact ⟨'"' :: rest, t, by simpa using hdoc⟩
  | escape houter hstem hrun =>
      have hquote := hrun.append (.escape .quote .nil)
      obtain ⟨rest, t, hdoc⟩ :=
        (Open.node houter hstem (.quoted hquote) .nil .nil).exists_document
      exact ⟨'"' :: '"' :: rest, t, by simpa using hdoc⟩
  | closed h => exact absurd rfl (hm _)

open Reader

variable {kinds : KindTable} {text front : List Char} {c : Char} {r : Reader} {e : ReadError}

theorem tracks_of_feeds (h : Feeds { kinds := kinds } text r) : r.Tracks text := by
  have hstart : Tracks { kinds := kinds } [] := ⟨rfl, by simp [Mode.marks]⟩
  exact tracks_feed hstart h

theorem Reader.finish_error {r : Reader} {e : ReadError} (h : r.finish.2 = .error e) :
    e.Unfinished r.offset ∧ (∀ offset ∈ e.offset?, offset ∈ r.offset :: r.mode.marks) ∧
      ∀ t, r.mode ≠ .closed t := by
  obtain ⟨kinds, offset, mode, frames⟩ := r
  cases mode with
  | between =>
      by_cases hempty : frames.isEmpty
      · simp only [finish, hempty, if_true] at h
        cases h
        simp [ReadError.Unfinished, ReadError.offset?]
      · simp only [finish, hempty] at h
        cases h
        simp [ReadError.Unfinished, ReadError.offset?]
  | closed t => cases h
  | _ =>
      cases h
      simp [ReadError.Unfinished, ReadError.offset?, Mode.marks]

theorem unfinished_of_finish (h : Feeds { kinds := kinds } text r) (hfinish : r.finish.2 = .error e) :
    e.Unfinished (byteSize text) := by
  rw [← (tracks_of_feeds h).offset]
  exact (finish_error hfinish).1

theorem exists_document_of_unfinished (h : Feeds { kinds := kinds } text r)
    (hfinish : r.finish.2 = .error e) : ∃ rest t, Document (text ++ rest) t := by
  have hstart : Holds { kinds := kinds } [] := .between (.start .nil)
  exact (holds_feed hstart h).exists_document (finish_error hfinish).2.2

theorem boundary_of_finish (h : Feeds { kinds := kinds } text r) (hfinish : r.finish.2 = .error e) :
    ∀ offset ∈ e.offset?, Boundary text offset := by
  intro offset hoffset
  exact (tracks_of_feeds h).boundary ((finish_error hfinish).2.1 offset hoffset)

theorem not_unfinished_of_refused (h : Feeds { kinds := kinds } front r)
    (hreact : r.react c = .error e) (rest : List Char) :
    ¬ e.Unfinished (byteSize (front ++ c :: rest)) := by
  have hoffset : r.offset = byteSize front := (tracks_of_feeds h).offset
  have hc : 0 < c.utf8Size := Char.utf8Size_pos c
  cases refusal_of_react hreact with
  | missingKind =>
      simp only [ReadError.Unfinished, byteSize_append, byteSize_cons]
      omega
  | _ => exact not_false

theorem readRose_refused (h : Feeds { kinds := kinds } front r) (hreact : r.react c = .error e)
    (rest : List Char) (more : KindTable) : (readRose more (front ++ c :: rest)).2 = .error e := by
  have hstart : Alike { kinds := kinds } { kinds := more } := ⟨rfl, .refl .between, rfl⟩
  obtain ⟨s, hfeed, halike⟩ := hstart.exists_feeds h
  have hstop : s.feed (c :: rest) = (s, some e) := by
    rw [feed, step, halike.react.eq_error hreact]
    rfl
  rw [readRose, hfeed.feed_append, hstop]

theorem boundary_of_refused (h : Feeds { kinds := kinds } front r)
    (hreact : r.react c = .error e) : ∀ offset ∈ e.offset?, Boundary front offset := by
  intro offset hoffset
  apply (tracks_of_feeds h).boundary
  cases refusal_of_react hreact with
  | invalidEscape hslash =>
      cases hoffset
      exact List.mem_cons_of_mem _ hslash
  | _ =>
      cases hoffset
      exact List.mem_cons_self

/-- Either the text has ended and can be completed, or a character of it has been refused and is so
in every longer text. -/
theorem readRose_error (h : (readRose kinds text).2 = .error e) :
    (∀ offset ∈ e.offset?, Boundary text offset) ∧
      (e.Unfinished (byteSize text) ∧ (∃ rest t, Document (text ++ rest) t) ∨
        ¬ e.Unfinished (byteSize text) ∧
          ∀ rest more, (readRose more (text ++ rest)).2 = .error e) := by
  rw [readRose] at h
  split at h
  · next r hfeed =>
      exact ⟨boundary_of_finish hfeed h, .inl
        ⟨unfinished_of_finish hfeed h, exists_document_of_unfinished hfeed h⟩⟩
  · next r e' hfeed =>
      cases h
      obtain ⟨front, c, rest, rfl, hfront, hreact⟩ := exists_of_feed_error hfeed
      refine ⟨?_, .inr ⟨not_unfinished_of_refused hfront hreact rest, ?_⟩⟩
      · intro offset hoffset
        exact (boundary_of_refused hfront hreact offset hoffset).append (c :: rest)
      · intro suffix more
        rw [List.append_assoc, List.cons_append]
        exact readRose_refused hfront hreact (rest ++ suffix) more

theorem Boundary.isValid {text : String} {offset : Nat} (h : Boundary text.toList offset) :
    String.Pos.Raw.IsValid text ⟨offset⟩ ∧ offset ≤ text.utf8ByteSize := by
  obtain ⟨front, ⟨rest, hrest⟩, rfl⟩ := h
  have htext : text = String.ofList front ++ String.ofList rest := by
    rw [← String.ofList_append, hrest, String.ofList_toList]
  have hend : (⟨byteSize front⟩ : String.Pos.Raw) = (String.ofList front).rawEndPos := by
    rw [← utf8ByteSize_ofList]
    rfl
  constructor
  · exact String.Pos.Raw.isValid_iff_exists_append.2 ⟨_, _, htext, hend⟩
  · rw [htext, String.utf8ByteSize_append, utf8ByteSize_ofList]
    exact Nat.le_add_right _ _

theorem read_snd [TokenHash] (kinds : KindTable) (text : String) :
    (read kinds text).2 = (readRose kinds text.toList).2.map Tree.ofRose := rfl

theorem read_error_iff [TokenHash] {text : String} :
    (read kinds text).2 = .error e ↔ (readRose kinds text.toList).2 = .error e := by
  rw [read_snd]
  cases (readRose kinds text.toList).2 <;> simp [Except.map]

/-- An unfinished text has a continuation that is read; any other error is final. Offsets are
boundaries of characters. -/
theorem read_error [TokenHash] {kinds : KindTable} {text : String} {e : ReadError}
    (h : (read kinds text).2 = .error e) :
    (e.Unfinished text.utf8ByteSize →
        ∃ rest, ∀ more, ∃ t, (read more (text ++ rest)).2 = .ok t) ∧
      (¬ e.Unfinished text.utf8ByteSize →
        ∀ rest more, (read more (text ++ rest)).2 = .error e) ∧
      ∀ offset ∈ e.offset?, String.Pos.Raw.IsValid text ⟨offset⟩ ∧ offset ≤ text.utf8ByteSize := by
  obtain ⟨hoffset, hcases⟩ := readRose_error (read_error_iff.1 h)
  rw [← utf8ByteSize_ofList, String.ofList_toList] at hcases
  refine ⟨?_, ?_, fun offset ho => (hoffset offset ho).isValid⟩
  · intro hunfinished
    obtain ⟨-, rest, t, hdoc⟩ := hcases.resolve_right fun hfinal => hfinal.1 hunfinished
    refine ⟨String.ofList rest, ?_⟩
    intro more
    have hdoc' : Document (text ++ String.ofList rest).toList t := by
      rwa [String.toList_append, String.toList_ofList]
    exact ⟨_, congrArg Prod.snd (hdoc'.read more)⟩
  · intro hfinal rest more
    obtain ⟨-, hrefused⟩ := hcases.resolve_left fun hunfinished => hfinal hunfinished.1
    rw [read_error_iff, String.toList_append]
    exact hrefused rest.toList more

attribute [local instance] TokenHash.constant

/-- An escape that is cut off, and one that is wrong. -/
theorem read_error_escapes :
    (read .empty "(é \"ü\\").2 = .error (.unterminatedLabel 4) ∧
      (∃ rest, ∀ more, ∃ t, (read more ("(é \"ü\\" ++ rest)).2 = .ok t) ∧
      (read .empty "(é \"ü\\q").2 = .error (.invalidEscape 7 'q') ∧
      ∀ rest more, (read more ("(é \"ü\\q" ++ rest)).2 = .error (.invalidEscape 7 'q') := by
  have hcut : (read .empty "(é \"ü\\").2 = .error (.unterminatedLabel 4) := by
    with_unfolding_all rfl
  have hwrong : (read .empty "(é \"ü\\q").2 = .error (.invalidEscape 7 'q') := by
    with_unfolding_all rfl
  exact ⟨hcut, (read_error hcut).1 trivial, hwrong, (read_error hwrong).2.1 not_false⟩

end TreeDelta.Literal
