import Mathlib.Algebra.GroupWithZero.Nat
import Mathlib.Data.List.Basic
import Mathlib.Data.String.Basic
import TreeDelta.Literal.Reader

namespace TreeDelta.Literal

/-- What a literal says about one node. -/
structure Entry where
  name : String
  label : Option String
  pos : Nat
  length : Nat
deriving DecidableEq

def byteSize (cs : List Char) : Nat := (cs.map Char.utf8Size).sum

@[simp] theorem byteSize_nil : byteSize [] = 0 := rfl

@[simp] theorem byteSize_cons (c : Char) (cs : List Char) :
    byteSize (c :: cs) = c.utf8Size + byteSize cs := by
  simp [byteSize]

@[simp] theorem byteSize_append (as bs : List Char) :
    byteSize (as ++ bs) = byteSize as + byteSize bs := by
  simp [byteSize]

theorem utf8ByteSize_ofList (cs : List Char) : (String.ofList cs).utf8ByteSize = byteSize cs := by
  rw [String.utf8ByteSize_ofList]
  induction cs with
  | nil => rfl
  | cons c cs ih => rw [String.utf8Len_cons, ih, byteSize_cons, Nat.add_comm]

def Blanks (cs : List Char) : Prop := ∀ c ∈ cs, Text.isBlank c

def NameChar (c : Char) : Prop := ¬ Text.isBlank c ∧ c ≠ '(' ∧ c ≠ ')' ∧ c ≠ '"'

theorem isNameChar_iff {c : Char} : isNameChar c ↔ NameChar c := by
  simp [isNameChar, NameChar, and_assoc]

instance : DecidablePred NameChar := fun _ => decidable_of_iff _ isNameChar_iff

/-- A text that ends every word before it. -/
def Stops (rest : List Char) : Prop := ∀ c ∈ rest.head?, ¬ NameChar c

/-- A non-empty run of name characters which `rest` does not continue. -/
structure Word (word rest : List Char) : Prop where
  nonempty : word ≠ []
  letters : ∀ c ∈ word, NameChar c
  maximal : Stops rest

/-- A character after a backslash, and the one that the two stand for. -/
inductive Escape : Char → Char → Prop
  | quote : Escape '"' '"'
  | backslash : Escape '\\' '\\'
  | newline : Escape 'n' '\n'
  | tab : Escape 't' '\t'

/-- A text between quotes, and the letters of the label that it denotes. -/
inductive Run : List Char → List Char → Prop
  | nil : Run [] []
  | plain {c : Char} {text letters : List Char} (hquote : c ≠ '"') (hslash : c ≠ '\\')
      (hrest : Run text letters) : Run (c :: text) (c :: letters)
  | escape {c d : Char} {text letters : List Char} (hescape : Escape c d)
      (hrest : Run text letters) : Run ('\\' :: c :: text) (d :: letters)

inductive Label : List Char → Option String → Prop
  | absent : Label [] none
  | quoted {text letters : List Char} (hrun : Run text letters) :
      Label ('"' :: (text ++ ['"'])) (some (String.ofList letters))

/-- A node up to the place of its label. -/
inductive Stem : List Char → String → List Char → Prop
  | intro {lead word gap rest : List Char} (hlead : Blanks lead) (hword : Word word (gap ++ rest))
      (hgap : Blanks gap) : Stem ('(' :: (lead ++ word ++ gap)) (String.ofList word) rest

mutual
/-- The text of a node that starts at a given offset, and the tree that it denotes. -/
inductive Phrase : Nat → List Char → Rose Entry → Prop
  | intro {pos : Nat} {stem label kids trail : List Char} {name : String} {label? : Option String}
      {ts : List (Rose Entry)} (hstem : Stem stem name (label ++ kids ++ trail ++ [')']))
      (hlabel : Label label label?) (hkids : Phrases (pos + byteSize (stem ++ label)) kids ts)
      (htrail : Blanks trail) :
      Phrase pos (stem ++ label ++ kids ++ trail ++ [')'])
        (.node ⟨name, label?, pos, byteSize (stem ++ label ++ kids ++ trail ++ [')'])⟩ ts)
/-- Nodes one after the other, with blanks before each. -/
inductive Phrases : Nat → List Char → List (Rose Entry) → Prop
  | nil {pos : Nat} : Phrases pos [] []
  | cons {pos : Nat} {gap node rest : List Char} {t : Rose Entry} {ts : List (Rose Entry)}
      (hgap : Blanks gap) (hnode : Phrase (pos + byteSize gap) node t)
      (hrest : Phrases (pos + byteSize (gap ++ node)) rest ts) :
      Phrases pos (gap ++ node ++ rest) (t :: ts)
end

inductive Document : List Char → Rose Entry → Prop
  | intro {lead node trail : List Char} {t : Rose Entry} (hlead : Blanks lead)
      (hnode : Phrase (byteSize lead) node t) (htrail : Blanks trail) :
      Document (lead ++ node ++ trail) t

theorem Blanks.nil : Blanks [] := by
  intro c hc
  cases hc

theorem Blanks.append {as bs : List Char} (ha : Blanks as) (hb : Blanks bs) : Blanks (as ++ bs) := by
  intro c hc
  rcases List.mem_append.1 hc with hc | hc
  · exact ha c hc
  · exact hb c hc

theorem Blanks.singleton {c : Char} (h : Text.isBlank c) : Blanks [c] := by
  intro d hd
  rwa [List.mem_singleton.1 hd]

theorem Blanks.stops_append {gap rest : List Char} (hgap : Blanks gap) (hrest : Stops rest) :
    Stops (gap ++ rest) := by
  cases gap with
  | nil => exact hrest
  | cons c gap =>
      intro d hd hname
      obtain rfl : c = d := by simpa using hd
      exact hname.1 (hgap c (by simp))

theorem stops_of_not_nameChar {c : Char} {rest : List Char} (h : ¬ NameChar c) :
    Stops (c :: rest) := by
  intro d hd
  obtain rfl : c = d := by simpa using hd
  exact h

theorem not_nameChar_open : ¬ NameChar '(' := fun h => h.2.1 rfl

theorem not_nameChar_close : ¬ NameChar ')' := fun h => h.2.2.1 rfl

theorem not_nameChar_quote : ¬ NameChar '"' := fun h => h.2.2.2 rfl

theorem Label.stops_append {label rest : List Char} {label? : Option String}
    (h : Label label label?) (hrest : Stops rest) : Stops (label ++ rest) := by
  cases h with
  | absent => exact hrest
  | quoted _ => exact stops_of_not_nameChar not_nameChar_quote

theorem Stem.exists_cons {stem rest : List Char} {name : String} (h : Stem stem name rest) :
    ∃ tail, stem = '(' :: tail := by
  cases h with
  | intro _ _ _ => exact ⟨_, rfl⟩

theorem Phrase.exists_cons {pos : Nat} {node : List Char} {t : Rose Entry}
    (h : Phrase pos node t) : ∃ tail, node = '(' :: tail := by
  cases h with
  | intro hstem _ _ _ =>
      obtain ⟨tail, rfl⟩ := hstem.exists_cons
      exact ⟨_, rfl⟩

theorem Phrases.stops_append {pos : Nat} {kids rest : List Char} {ts : List (Rose Entry)}
    (h : Phrases pos kids ts) (hrest : Stops rest) : Stops (kids ++ rest) := by
  cases h with
  | nil => exact hrest
  | cons hgap hnode _ =>
      obtain ⟨tail, rfl⟩ := hnode.exists_cons
      rw [List.append_assoc, List.append_assoc]
      exact hgap.stops_append (stops_of_not_nameChar not_nameChar_open)

theorem Stem.followed {stem rest : List Char} {name : String} (h : Stem stem name [])
    (hrest : Stops rest) : Stem stem name rest := by
  cases h with
  | intro hlead hword hgap =>
      exact .intro hlead ⟨hword.nonempty, hword.letters, hgap.stops_append hrest⟩ hgap

theorem Run.append {text text' letters letters' : List Char} (h : Run text letters)
    (h' : Run text' letters') : Run (text ++ text') (letters ++ letters') := by
  induction h with
  | nil => exact h'
  | plain hquote hslash _ ih => exact .plain hquote hslash ih
  | escape hescape _ ih => exact .escape hescape ih

theorem Phrases.append {pos : Nat} {kids kids' : List Char} {ts us : List (Rose Entry)} :
    Phrases pos kids ts → Phrases (pos + byteSize kids) kids' us →
      Phrases pos (kids ++ kids') (ts ++ us)
  | .nil, h' => h'
  | .cons hgap hnode hrest, h' => by
      have hrest' := hrest.append (by simpa [Nat.add_assoc] using h')
      rw [List.append_assoc (_ ++ _)]
      exact .cons hgap hnode hrest'

def StartsIn (first stop : Nat) (es : List Entry) : Prop :=
  (es.map Entry.pos).Pairwise (· < ·) ∧ ∀ e ∈ es, first ≤ e.pos ∧ e.pos < stop

theorem StartsIn.singleton {stop : Nat} {e : Entry} (h : e.pos < stop) : StartsIn e.pos stop [e] := by
  refine ⟨by simp, ?_⟩
  intro d hd
  rw [List.mem_singleton.1 hd]
  exact ⟨Nat.le_refl _, h⟩

theorem StartsIn.append {first mid mid' stop : Nat} {es es' : List Entry}
    (h : StartsIn first mid es) (h' : StartsIn mid' stop es') (hfirst : first ≤ mid)
    (hmid : mid ≤ mid') (hstop : mid' ≤ stop) : StartsIn first stop (es ++ es') := by
  constructor
  · rw [List.map_append, List.pairwise_append]
    refine ⟨h.1, h'.1, ?_⟩
    simp only [List.mem_map]
    rintro _ ⟨e, he, rfl⟩ _ ⟨e', he', rfl⟩
    have := h.2 e he
    have := h'.2 e' he'
    omega
  · intro e he
    rcases List.mem_append.1 he with he | he
    · have := h.2 e he
      omega
    · have := h'.2 e he
      omega

theorem StartsIn.mono {first first' stop stop' : Nat} {es : List Entry} (h : StartsIn first stop es)
    (hfirst : first' ≤ first) (hstop : stop ≤ stop') : StartsIn first' stop' es := by
  refine ⟨h.1, ?_⟩
  intro e he
  have := h.2 e he
  omega

mutual
theorem Phrase.startsIn {pos : Nat} {node : List Char} {t : Rose Entry} :
    Phrase pos node t → StartsIn pos (pos + byteSize node) t.preorder
  | @Phrase.intro _ stem label kids trail name label? ts hstem hlabel hkids htrail => by
      obtain ⟨tail, rfl⟩ := hstem.exists_cons
      have hopen : 0 < '('.utf8Size := Char.utf8Size_pos _
      rw [Rose.preorder_node]
      change StartsIn _ _ ([_] ++ ts.flatMap Rose.preorder)
      have hroot (size : Nat) : StartsIn pos (pos + '('.utf8Size) [⟨name, label?, pos, size⟩] :=
        .singleton (Nat.lt_add_of_pos_right hopen)
      have hfront : byteSize ('(' :: tail ++ label) =
          '('.utf8Size + byteSize tail + byteSize label := by
        simp [Nat.add_assoc]
      have hwhole : byteSize ('(' :: tail ++ label ++ kids ++ trail ++ [')']) =
          byteSize ('(' :: tail ++ label) + byteSize kids + byteSize (trail ++ [')']) := by
        simp [Nat.add_assoc]
      refine ((hroot _).append hkids.startsIn ?_ ?_ ?_).mono (Nat.le_refl pos) ?_ <;> omega
theorem Phrases.startsIn {pos : Nat} {kids : List Char} {ts : List (Rose Entry)} :
    Phrases pos kids ts → StartsIn pos (pos + byteSize kids) (ts.flatMap Rose.preorder)
  | .nil => by
      refine ⟨.nil, ?_⟩
      intro e he
      cases he
  | @Phrases.cons _ gap node rest t ts hgap hnode hrest => by
      have hfront := byteSize_append gap node
      have hwhole := byteSize_append (gap ++ node) rest
      rw [List.flatMap_cons]
      refine (hnode.startsIn.append hrest.startsIn ?_ ?_ ?_).mono ?_ ?_ <;> omega
end

end TreeDelta.Literal
