import TreeDelta.Proofs.Grammar

namespace TreeDelta.Literal

/-- Where in a text a scan is: outside labels, in a label, or after a backslash in a label. -/
inductive Place where
  | plain
  | label
  | escape
deriving DecidableEq

structure Tally where
  opened : Nat := 0
  closed : Nat := 0
  place : Place := .plain
deriving DecidableEq

namespace Tally

def step (s : Tally) (c : Char) : Tally :=
  match s.place with
  | .plain =>
      if c = '(' then { s with opened := s.opened + 1 }
      else if c = ')' then { s with closed := s.closed + 1 }
      else if c = '"' then { s with place := .label }
      else s
  | .label =>
      if c = '"' then { s with place := .plain }
      else if c = '\\' then { s with place := .escape }
      else s
  | .escape => { s with place := .label }

def scan (s : Tally) (cs : List Char) : Tally := cs.foldl step s

def both (s : Tally) (n : Nat) : Tally :=
  { s with opened := s.opened + n, closed := s.closed + n }

theorem both_both (s : Tally) (m n : Nat) : (s.both m).both n = s.both (m + n) := by
  simp [both, Nat.add_assoc]

theorem le_both {s : Tally} {low : Nat} (h : s.closed + low ≤ s.opened) (n : Nat) :
    (s.both n).closed + low ≤ (s.both n).opened := by
  dsimp only [both]
  omega

end Tally

/-- The first character is an opening parenthesis and the last one closes it: on the way from the
one to the other there is always an open parenthesis, and at the end there is none. -/
structure Bracketed (cs : List Char) : Prop where
  ends : ∃ inner, cs = '(' :: (inner ++ [')'])
  inside : ∀ front, front <+: cs → front ≠ [] → front ≠ cs →
    (Tally.scan {} front).closed < (Tally.scan {} front).opened
  outside : (Tally.scan {} cs).closed = (Tally.scan {} cs).opened ∧
    (Tally.scan {} cs).place = .plain

/-- The scan of `cs` leads from `s` to `u`, and all the way at least `low` parentheses are open. -/
inductive Scans (low : Nat) : Tally → List Char → Tally → Prop
  | nil {s : Tally} (h : s.closed + low ≤ s.opened) : Scans low s [] s
  | cons {s u : Tally} {c : Char} {cs : List Char} (h : s.closed + low ≤ s.opened)
      (hrest : Scans low (s.step c) cs u) : Scans low s (c :: cs) u

namespace Scans

variable {low : Nat} {s u v : Tally} {c : Char} {as bs cs : List Char}

theorem scan_eq (h : Scans low s cs u) : s.scan cs = u := by
  induction h with
  | nil _ => rfl
  | cons _ _ ih => exact ih

theorem append (h : Scans low s as u) (h' : Scans low u bs v) : Scans low s (as ++ bs) v := by
  induction h with
  | nil _ => exact h'
  | cons hlow _ ih => exact .cons hlow (ih h')

theorem mono {low' : Nat} (h : Scans low s cs u) (hlow : low' ≤ low) : Scans low' s cs u := by
  induction h with
  | nil h => exact .nil (by omega)
  | cons h _ ih => exact .cons (by omega) ih

theorem above {front : List Char} (h : Scans low s cs u) (hfront : front <+: cs) :
    (s.scan front).closed + low ≤ (s.scan front).opened := by
  induction h generalizing front with
  | nil hlow =>
      rw [List.prefix_nil.1 hfront]
      exact hlow
  | cons hlow _ ih =>
      rcases List.prefix_cons_iff.1 hfront with rfl | ⟨rest, rfl, hrest⟩
      · exact hlow
      · exact ih hrest

theorem quiet (hs : s.place = .plain) (hlow : s.closed + low ≤ s.opened)
    (h : ∀ c ∈ cs, c ≠ '(' ∧ c ≠ ')' ∧ c ≠ '"') : Scans low s cs s := by
  induction cs with
  | nil => exact .nil hlow
  | cons c cs ih =>
      obtain ⟨hopen, hclose, hquote⟩ := h c (by simp)
      have hstep : s.step c = s := by simp [Tally.step, hs, hopen, hclose, hquote]
      apply Scans.cons hlow
      rw [hstep]
      exact ih fun d hd => h d (by simp [hd])

theorem blanks (hs : s.place = .plain) (hlow : s.closed + low ≤ s.opened) (h : Blanks cs) :
    Scans low s cs s := by
  apply quiet hs hlow
  intro c hc
  have hblank := h c hc
  refine ⟨?_, ?_, ?_⟩ <;> rintro rfl <;> exact absurd hblank (by decide)

theorem run {letters : List Char} (hs : s.place = .label) (hlow : s.closed + low ≤ s.opened)
    (h : Run cs letters) : Scans low s cs s := by
  induction h with
  | nil => exact .nil hlow
  | @plain c _ _ hquote hslash _ ih =>
      have hstep : s.step c = s := by simp [Tally.step, hs, hquote, hslash]
      apply Scans.cons hlow
      rwa [hstep]
  | @escape c _ _ _ _ _ ih =>
      have hstep : (s.step '\\').step c = s := by
        obtain ⟨opened, closed, place⟩ := s
        cases hs
        rfl
      have hslash : (s.step '\\').closed + low ≤ (s.step '\\').opened := by
        simpa [Tally.step, hs] using hlow
      apply Scans.cons hlow
      apply Scans.cons hslash
      rwa [hstep]

theorem label {label? : Option String} (hs : s.place = .plain) (hlow : s.closed + low ≤ s.opened)
    (h : Label cs label?) : Scans low s cs s := by
  obtain ⟨opened, closed, place⟩ := s
  cases hs
  cases h with
  | absent => exact .nil hlow
  | quoted hrun =>
      have hlabel := Scans.run (s := ⟨opened, closed, .label⟩) rfl hlow hrun
      exact .cons hlow (hlabel.append (.cons hlow (.nil hlow)))

theorem stem {tail rest : List Char} {name : String} (hs : s.place = .plain)
    (hlow : s.closed + low ≤ s.opened) (h : Stem ('(' :: tail) name rest) : Scans low s tail s := by
  cases h with
  | intro hlead hword hgap =>
      refine ((blanks hs hlow hlead).append ?_).append (blanks hs hlow hgap)
      apply quiet hs hlow
      intro c hc
      exact (hword.letters c hc).2

theorem enclose {n : Nat} (hs : s.place = .plain) (hlow : s.closed + low ≤ s.opened)
    (h : ∀ (low : Nat) (s : Tally), s.place = .plain → s.closed + low ≤ s.opened →
      Scans low s cs (s.both n)) :
    Scans low s ('(' :: (cs ++ [')'])) (s.both (n + 1)) := by
  obtain ⟨opened, closed, place⟩ := s
  cases hs
  replace hlow : closed + low ≤ opened := hlow
  have hdeeper : closed + (low + 1) ≤ opened + 1 := by omega
  have hbefore : closed + n + low ≤ opened + 1 + n := by omega
  have hafter : closed + n + 1 + low ≤ opened + 1 + n := by omega
  have hinner := (h (low + 1) ⟨opened + 1, closed, .plain⟩ rfl hdeeper).mono (Nat.le_succ low)
  have hclose : Scans low ⟨opened + 1 + n, closed + n, .plain⟩ [')']
      ⟨opened + 1 + n, closed + n + 1, .plain⟩ := .cons hbefore (.nil hafter)
  have hboth : (⟨opened + 1 + n, closed + n + 1, .plain⟩ : Tally) =
      Tally.both ⟨opened, closed, .plain⟩ (n + 1) := by
    simp only [Tally.both, Nat.add_assoc, Nat.add_comm 1 n]
  rw [hboth] at hclose
  exact .cons hlow (hinner.append hclose)

end Scans

mutual
/-- Inside its parentheses a node opens and closes one pair for each node below it. -/
theorem Phrase.exists_inner {pos : Nat} {node : List Char} {t : Rose Entry} :
    Phrase pos node t → ∃ inner, node = '(' :: (inner ++ [')']) ∧
      ∀ (low : Nat) (s : Tally), s.place = .plain → s.closed + low ≤ s.opened →
        Scans low s inner (s.both (Rose.sizeAll t.children))
  | @Phrase.intro _ stem label kids trail name label? ts hstem hlabel hkids htrail => by
      obtain ⟨tail, rfl⟩ := hstem.exists_cons
      refine ⟨tail ++ label ++ kids ++ trail, by simp, ?_⟩
      intro low s hs hlow
      have hhead := (Scans.stem hs hlow hstem).append (.label hs hlow hlabel)
      have htrail : Scans low (s.both (Rose.sizeAll ts)) trail (s.both (Rose.sizeAll ts)) :=
        .blanks hs (Tally.le_both hlow _) htrail
      exact (hhead.append (hkids.scans hs hlow)).append htrail
theorem Phrases.scans {pos low : Nat} {kids : List Char} {ts : List (Rose Entry)} {s : Tally} :
    Phrases pos kids ts → s.place = .plain → s.closed + low ≤ s.opened →
      Scans low s kids (s.both (Rose.sizeAll ts))
  | .nil, _, hlow => .nil hlow
  | @Phrases.cons _ gap node rest (.node e us) ts hgap hnode hrest, hs, hlow => by
      obtain ⟨inner, rfl, hinner⟩ := hnode.exists_inner
      have hfirst : Scans low s ('(' :: (inner ++ [')'])) (s.both (Rose.sizeAll us + 1)) :=
        .enclose hs hlow hinner
      have hrest := hrest.scans (s := s.both (Rose.sizeAll us + 1)) hs (Tally.le_both hlow _)
      rw [Tally.both_both, ← Rose.size_node e us] at hrest
      exact ((Scans.blanks hs hlow hgap).append hfirst).append hrest
end

namespace Phrase

variable {pos low : Nat} {node : List Char} {t : Rose Entry} {s : Tally}

theorem scans (h : Phrase pos node t) (hs : s.place = .plain) (hlow : s.closed + low ≤ s.opened) :
    Scans low s node (s.both t.size) := by
  obtain ⟨e, ts⟩ := t
  obtain ⟨inner, rfl, hinner⟩ := h.exists_inner
  rw [Rose.size_node]
  exact .enclose hs hlow hinner

theorem bracketed (h : Phrase pos node t) : Bracketed node := by
  have hall : Scans 0 {} node (Tally.both {} t.size) := h.scans rfl (Nat.le_refl 0)
  obtain ⟨inner, rfl, hinner⟩ := h.exists_inner
  constructor
  case ends => exact ⟨inner, rfl⟩
  case outside => simp [hall.scan_eq, Tally.both]
  case inside =>
    intro front hfront hne hproper
    obtain ⟨rest, rfl, hrest⟩ := (List.prefix_cons_iff.1 hfront).resolve_left hne
    have hinside : rest <+: inner := by
      refine (List.prefix_concat_iff.1 hrest).resolve_left ?_
      rintro rfl
      exact hproper rfl
    have habove := (hinner 1 ⟨1, 0, .plain⟩ rfl (Nat.le_refl 1)).above hinside
    exact Nat.lt_of_succ_le habove

end Phrase

end TreeDelta.Literal
