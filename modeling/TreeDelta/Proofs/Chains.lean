import TreeDelta.Diff
import TreeDelta.Proofs.MatchingContract
import TreeDelta.Proofs.RoundTrip
import TreeDelta.Proofs.Spans

namespace TreeDelta

variable {src dst t : Tree} {p : Pairing} {added removed : Std.HashSet NodeId}

theorem Action.Grounded.condense {a b : Action} (ha : a.Grounded src dst)
    (h : Script.condenseAction src dst added removed a = some b) : b.Grounded src dst := by
  obtain rfl | ⟨_, _, _, _, _, _, rfl, rfl⟩ | ⟨_, rfl, rfl⟩ := Script.condenseAction_cases h
  · exact ha
  · exact ha
  · exact ha

theorem Draft.Written.grounded {t : Task Action} {q : Pairing} {a : Action}
    (h : Written t p q a) (hp : p.Within src t.dst) : a.Grounded src t.dst := by
  cases a with
  | insert => exact h.2.2.1
  | update => exact hp _ _ h
  | move => exact hp _ _ h.1
  | insertTree => exact h.elim
  | delete => exact h.elim
  | deleteTree => exact h.elim

theorem Draft.grounded_script {d : Draft Action} (h : Finished (scripting src dst) src p d)
    (htold : Told (scripting src dst) p d) :
    ∀ a ∈ (script src dst d).actions, a.Grounded src dst := by
  intro a ha
  rcases List.mem_append.1 ha with ha | ha
  · exact (htold a ha).grounded h.setting.within
  · obtain ⟨n, hn, rfl⟩ := List.mem_map.1 ha
    obtain ⟨hunder, htop, hfree⟩ := h.mem_leftovers_iff.1 hn
    exact (h.leftover_home (h.base.links.has_of_under hunder h.base.has_top) htop hfree).1

theorem Script.grounded_condense {s : Script} (h : ∀ a ∈ s.actions, a.Grounded src dst) :
    ∀ a ∈ (s.condense src dst).actions, a.Grounded src dst := by
  intro b hb
  obtain ⟨a, ha, hab⟩ := List.mem_filterMap.1 hb
  exact (h a ha).condense hab

theorem Gives.footprint (hs : src.Sound) (hd : dst.Sound) {s : Script}
    (h : ∀ a ∈ s.actions, a.Grounded src dst) : Gives (s.footprint src dst) fun _ => True := by
  have haction : ∀ a ∈ s.actions, Gives (Action.footprint src dst a) fun _ => True := by
    intro a ha
    have hground := h a ha
    cases a with
    | insert => exact .pure trivial
    | insertTree _ x =>
        apply (of_eq (Tree.subtree_eq_ok (hd.has_of_reaches hground))).bind
        intro _ _
        exact .pure trivial
    | delete => exact .pure trivial
    | deleteTree => exact (of_eq (Tree.subtree_eq_ok hground)).bind fun _ _ => .pure trivial
    | update => exact .pure trivial
    | move =>
        apply (of_eq (Tree.subtree_eq_ok (hs.has_of_reaches hground.1))).bind
        intro _ _
        apply (of_eq (Tree.subtree_eq_ok (hd.has_of_reaches hground.2))).bind
        intro _ _
        exact .pure trivial
  exact (mapM haction).bind fun _ _ => .pure trivial

inductive Form where
  | plain
  | condensed
deriving DecidableEq

def Script.inForm (s : Script) (src dst : Tree) : Form → Script
  | .plain => s
  | .condensed => s.condense src dst

def Diff.scriptIn (d : Diff) : Form → Script
  | .plain => d.script
  | .condensed => d.condensed

theorem exists_script [TokenHash] (hs : src.Sound) (hd : dst.Sound) (hp : p.Between src dst) :
    ∃ s, Script.ofPairing src dst p = .ok s ∧ ∀ form,
      (∀ a ∈ (s.inForm src dst form).actions, a.Grounded src dst) ∧
        ∃ t, (s.inForm src dst form).replay src dst = .ok t ∧ Reproduces src dst p t := by
  obtain ⟨d, hd, hfin, htold, hreplayed⟩ := Draft.ofPairing_spec hs hd hp.sound hp.within
  have hground := Draft.grounded_script hfin htold
  refine ⟨_, hd, fun form => ?_⟩
  cases form with
  | plain => exact ⟨hground, Draft.replay_script hfin hreplayed⟩
  | condensed =>
      have hbun := Draft.bundled_script hfin htold
      exact ⟨Script.grounded_condense hground, Draft.replay_spec hfin hbun (hreplayed _ _ hbun)⟩

theorem Reproduces.ready [TokenHash] (h : Reproduces src dst p t) (hs : src.Ready) (hd : dst.Ready)
    (hp : p.Within src dst) (hspans : Forest.SpansKept halfWord src.forest t.forest) :
    t.Ready where
  sound := h.sound
  measures := h.measures
  count := h.forall₂_preorder.length_eq ▸ hd.count
  span a ha := by
    obtain ⟨b, _, hpair | ⟨hlt, _⟩⟩ :=
      forall₂_exists_of_mem h.forall₂_preorder (h.sound.mem_preorder_iff.2 ha)
    · have hreach := (hp a b hpair).1
      rw [hspans.old a (hs.has hreach)]
      exact hs.span a hreach
    · refine hspans.new a fun hold => ?_
      exact absurd hlt (Nat.not_lt.2 ((src.forest.has_iff_le a).1 hold).2)

theorem gives_between [TokenHash] (c : Config) (hs : src.Ready) (hd : dst.Ready) :
    Gives (Diff.between c src dst) (fun d => ∀ form,
        ∃ t, (d.scriptIn form).replay src dst = .ok t ∧ t.Ready ∧ t.sameAs dst) ∨
      Diff.between c src dst = .error .backtraceKinds ∧ DistanceFails c src dst := by
  rw [Diff.between]
  rcases gives_matching c hs hd with ⟨p, hp, hm⟩ | ⟨hfail, hdistance⟩
  · left
    obtain ⟨s, hofPairing, hforms⟩ := exists_script hs.sound hd.sound hm.between
    apply (Gives.of_eq hp).bind
    intro _ he
    subst he
    apply (Gives.of_eq hofPairing).bind
    intro _ he
    subst he
    refine (Gives.footprint hs.sound hd.sound (hforms .condensed).1).bind fun _ _ => .pure ?_
    intro form
    obtain ⟨hground, t, ht, hrep⟩ := hforms form
    have hready := hrep.ready hs hd hm.between.within (Script.spansKept_replay hd hground ht)
    refine ⟨t, ?_, hready, hrep.sameAs⟩
    cases form <;> exact ht
  · right
    rw [hfail]
    exact ⟨rfl, hdistance⟩

/-- One link of a chain: the tree to get to, and how. -/
structure Stage where
  target : Tree
  config : Config
  form : Form

inductive Break where
  | difference (fault : Fault)
  | replay (error : ReplayError)
deriving DecidableEq

def Stage.run [TokenHash] (s : Stage) (current : Tree) : Except Break Tree :=
  match Diff.between s.config current s.target with
  | .error fault => .error (.difference fault)
  | .ok d =>
      match (d.scriptIn s.form).replay current s.target with
      | .error error => .error (.replay error)
      | .ok next => .ok next

/-- The trees that a chain of differences goes through. -/
def chain [TokenHash] (current : Tree) : List Stage → Except Break (List Tree)
  | [] => .ok []
  | s :: rest => do
      let next ← s.run current
      return next :: (← chain next rest)

def Halts [TokenHash] (current : Tree) : List Stage → Prop
  | [] => False
  | s :: rest => DistanceFails s.config current s.target ∨
      ∃ next, s.run current = .ok next ∧ Halts next rest

theorem Stage.gives_run [TokenHash] (s : Stage) (hcurrent : t.Ready) (htarget : s.target.Ready) :
    Gives (s.run t) (fun next => next.Ready ∧ next.sameAs s.target) ∨
      s.run t = .error (.difference .backtraceKinds) ∧
        DistanceFails s.config t s.target := by
  rw [Stage.run]
  rcases gives_between s.config hcurrent htarget with ⟨d, hd, hforms⟩ | ⟨hfail, hdistance⟩
  · left
    obtain ⟨next, hnext, hready⟩ := hforms s.form
    simp only [hd, hnext]
    exact .ok hready
  · right
    rw [hfail]
    exact ⟨rfl, hdistance⟩

/-- What a chain leaves at the end of a stage: the target over again, with a root that has no
parent and measures of its present shape. -/
structure Stage.Reached [TokenHash] (s : Stage) (u : Tree) : Prop where
  sameAs : u.sameAs s.target
  sound : u.Sound
  root_parent : u.forest.parent? u.root = none
  measures : u.measures = some (u.forest.measures u.root)
  measure : ∀ a, u.Reaches a → u.measure a = .ok (u.forest.measureOf u.root a)

/-- Every replay of a chain succeeds and gives the target of its stage, whatever earlier replays
have left behind. A chain breaks only where an edit distance fails. -/
theorem chain_reaches_targets [TokenHash] {stages : List Stage} (hstart : t.Ready)
    (hstages : ∀ s ∈ stages, s.target.Ready) :
    (∃ ts, chain t stages = .ok ts ∧ List.Forall₂ Stage.Reached stages ts) ∨
      chain t stages = .error (.difference .backtraceKinds) ∧ Halts t stages := by
  induction stages generalizing t with
  | nil => exact .inl ⟨[], rfl, .nil⟩
  | cons s rest ih =>
      rw [List.forall_mem_cons] at hstages
      rw [chain]
      rcases s.gives_run hstart hstages.1 with ⟨next, hnext, hready, hsame⟩ | ⟨hfail, hdistance⟩
      · rw [hnext]
        change (∃ ts, (chain next rest >>= fun ts => .ok (next :: ts)) = .ok ts ∧ _) ∨
          (chain next rest >>= fun ts => .ok (next :: ts)) = _ ∧ _
        rcases ih hready hstages.2 with ⟨ts, hts, hall⟩ | ⟨hbreak, hhalts⟩
        · left
          rw [hts]
          refine ⟨next :: ts, rfl, .cons ⟨hsame, hready.sound, ?_, hready.measures, ?_⟩ hall⟩
          · exact hready.sound.root_parent
          · exact fun a ha => hready.measure_eq_ok ha
        · right
          rw [hbreak]
          exact ⟨rfl, .inr ⟨next, hnext, hhalts⟩⟩
      · right
        rw [hfail]
        exact ⟨rfl, .inl hdistance⟩

theorem not_halts [TokenHash] {stages : List Stage}
    (h : ∀ s ∈ stages, s.config.recovery = .simple) :
    ¬ Halts t stages := by
  induction stages generalizing t with
  | nil => exact id
  | cons s rest ih =>
      rw [List.forall_mem_cons] at h
      rintro (hdistance | ⟨next, _, hhalts⟩)
      · exact hdistance.1 h.1
      · exact ih h.2 hhalts

def thereAndBack [TokenHash] : List Stage :=
  [⟨(twig 2 3).measured, { recovery := .simple }, .condensed⟩,
    ⟨(twig 0 1).measured, { recovery := .simple }, .plain⟩]

attribute [local instance] TokenHash.constant

theorem chain_thereAndBack :
    (twig 0 1).measured.Ready ∧ (∀ s ∈ thereAndBack, s.target.Ready) ∧
      ∃ ts, chain (twig 0 1).measured thereAndBack = .ok ts ∧
        List.Forall₂ Stage.Reached thereAndBack ts := by
  have hstages : ∀ s ∈ thereAndBack, s.target.Ready := by
    simpa [thereAndBack] using ⟨ready_twig 2 3, ready_twig 0 1⟩
  refine ⟨ready_twig 0 1, hstages, ?_⟩
  refine (chain_reaches_targets (ready_twig 0 1) hstages).resolve_right fun hbreak => ?_
  exact not_halts (by simp [thereAndBack]) hbreak.2

end TreeDelta
