import SkipGraph.Core

/-!
# The local search and the top-down scan

Algorithm 1 scans the levels from the top and stops at the first neighbour that is not
past the target. The code collects all levels and selects by identifier, which leaves
the choice among the levels of a repeated neighbour to `max_by_key` and `min_by_key`:
the last one, the highest level, to the right, and the first one, the lowest, to the left.
-/

namespace SkipGraph

open Extremum

namespace BaseCore

variable {core : BaseCore} {req : IdSearchReq} {d : Direction} {target : Identifier} {l n : ℕ}

/-- The scan of Algorithm 1 over the levels below `n`, from the top. -/
def scanBelow (core : BaseCore) (d : Direction) (target : Identifier) : ℕ → Identifier × ℕ
  | 0 => (core.id,0)
  | l+1 =>
    match core.lt.entry l d with
    | some e => if d.le e.id target then (e.id,l) else core.scanBelow d target l
    | none => core.scanBelow d target l

def topDownScan (core : BaseCore) (req : IdSearchReq) : IdSearchRes :=
  let found := core.scanBelow req.direction req.target (req.level+1)
  ⟨req.nonce,req.target,found.2,found.1⟩

/-- The entries of a side never get nearer to the owner as the level rises. -/
def Layered (core : BaseCore) (d : Direction) : Prop :=
  ∀ l l' e e', l ≤ l' → core.lt.entry l d = some e → core.lt.entry l' d = some e' →
    d.le e.id e'.id

/-- The local search answers as the scan does, and the level it hands on is the highest
at which the chosen neighbour appears. -/
structure RefinesScan (core : BaseCore) (req : IdSearchReq) : Prop where
  answer : core.searchById req = .ok (core.topDownScan req)
  highest : ∀ res, core.searchById req = .ok res → ∀ l ≤ req.level, ∀ e,
    core.lt.entry l req.direction = some e → req.direction.le e.id req.target →
      e.id = res.result → l ≤ res.terminationLevel

/-- No neighbour within reach of the target is repeated up to the request's level, unless
another neighbour within reach is farther. -/
def FarthestOnce (core : BaseCore) (req : IdSearchReq) : Prop :=
  ∀ l l' e e', l < l' → l' ≤ req.level → core.lt.entry l req.direction = some e →
    core.lt.entry l' req.direction = some e' → e.id = e'.id →
    req.direction.le e.id req.target →
    ∃ k f, k ≤ req.level ∧ core.lt.entry k req.direction = some f ∧
      req.direction.le f.id req.target ∧ req.direction.lt e.id f.id

theorem scanBelow_cases (core : BaseCore) (d : Direction) (target : Identifier) (n : ℕ) :
    (core.scanBelow d target n = (core.id,0) ∧
      ∀ l < n, ∀ e, core.lt.entry l d = some e → d.lt target e.id) ∨
    ∃ l e, l < n ∧ core.lt.entry l d = some e ∧ d.le e.id target ∧
      core.scanBelow d target n = (e.id,l) ∧
      ∀ l' < n, ∀ e', core.lt.entry l' d = some e' → d.le e'.id target → l' ≤ l := by
  induction n with
  | zero => exact .inl ⟨rfl,by simp⟩
  | succ n ih =>
    by_cases hr : ∃ e, core.lt.entry n d = some e ∧ d.le e.id target
    · obtain ⟨e,he,hle⟩ := hr
      exact .inr ⟨n,e,by omega,he,hle,by simp [scanBelow,he,hle],fun l' hl' _ _ _ => by omega⟩
    · have hskip : core.scanBelow d target (n+1) = core.scanBelow d target n := by
        cases he : core.lt.entry n d with
        | none => simp [scanBelow,he]
        | some e =>
          have hn : ¬ d.le e.id target := fun hle => hr ⟨e,he,hle⟩
          simp [scanBelow,he,hn]
      rw [hskip]
      rcases ih with ⟨h,hpast⟩ | ⟨l,e,hl,he,hle,h,htop⟩
      · refine .inl ⟨h,fun l hl e he => ?_⟩
        rcases Nat.lt_succ_iff_lt_or_eq.mp hl with hl | rfl
        · exact hpast l hl e he
        · exact Direction.not_le.mp fun hle => hr ⟨e,he,hle⟩
      · refine .inr ⟨l,e,by omega,he,hle,h,fun l' hl' e' he' hle' => ?_⟩
        rcases Nat.lt_succ_iff_lt_or_eq.mp hl' with hl' | rfl
        · exact htop l' hl' e' he' hle'
        · exact absurd ⟨e',he',hle'⟩ hr

theorem candidates_pairwise (core : BaseCore) (req : IdSearchReq) :
    (core.candidates req).Pairwise fun a b => a.2 < b.2 := by
  rw [candidates,List.pairwise_filterMap]
  apply List.pairwise_lt_range.imp
  intro i j hij a ha b hb
  obtain ⟨-,-,rfl⟩ := Option.map_eq_some_iff.mp ha
  obtain ⟨-,-,rfl⟩ := Option.map_eq_some_iff.mp hb
  exact hij

def Preferred : Direction → ℕ → ℕ → Prop
  | .left, l, l' => l ≤ l'
  | .right, l, l' => l' ≤ l

/-- Among the levels of a repeated neighbour the code takes the highest to the right and
the lowest to the left. -/
theorem selectCandidate_level {cs : List (Identifier × ℕ)} {m c : Identifier × ℕ}
    (hcs : cs.Pairwise fun a b => a.2 < b.2) (h : selectCandidate d target cs = some m)
    (hc : c ∈ cs) (hle : d.le c.1 target) (heq : c.1 = m.1) : Preferred d m.2 c.2 := by
  cases d with
  | left =>
    have hmem : c ∈ cs.filter fun c => decide (c.1 ≥ target) :=
      List.mem_filter.mpr ⟨hc,decide_eq_true hle⟩
    rcases minByKey_first (hcs.filter _) h c hmem heq with rfl | hlt
    · exact Nat.le_refl _
    · exact Nat.le_of_lt hlt
  | right =>
    have hmem : c ∈ cs.filter fun c => decide (c.1 ≤ target) :=
      List.mem_filter.mpr ⟨hc,decide_eq_true hle⟩
    rcases maxByKey_last (hcs.filter _) h c hmem heq with rfl | hlt
    · exact Nat.le_refl _
    · exact Nat.le_of_lt hlt

/-- The slot that the code selects: the farthest within reach, at the level that the
tie-breaking of its direction picks. -/
structure Selected (core : BaseCore) (req : IdSearchReq) (l : ℕ) (e : Identity) : Prop where
  level_le : l ≤ req.level
  entry : core.lt.entry l req.direction = some e
  reach : req.direction.le e.id req.target
  farthest : ∀ l' ≤ req.level, ∀ e', core.lt.entry l' req.direction = some e' →
    req.direction.le e'.id req.target → req.direction.le e'.id e.id
  tie : ∀ l' ≤ req.level, ∀ e', core.lt.entry l' req.direction = some e' → e'.id = e.id →
    Preferred req.direction l l'

theorem searchById_selected (core : BaseCore) (req : IdSearchReq)
    (hl : req.level < lookupTableLevels) :
    (core.searchById req = .ok ⟨req.nonce,req.target,0,core.id⟩ ∧
      ∀ l ≤ req.level, ∀ e, core.lt.entry l req.direction = some e →
        req.direction.lt req.target e.id) ∨
    ∃ l e, core.searchById req = .ok ⟨req.nonce,req.target,l,e.id⟩ ∧ core.Selected req l e := by
  rw [searchById_eq core req hl]
  cases hs : selectCandidate req.direction req.target (core.candidates req) with
  | none => exact .inl ⟨rfl,candidates_none hs⟩
  | some m =>
    obtain ⟨id,l⟩ := m
    obtain ⟨hl',e,he,rfl,hle,hbest⟩ := candidates_some hs
    refine .inr ⟨l,e,rfl,hl',he,hle,hbest,fun k hk f hf heq => ?_⟩
    exact selectCandidate_level (core.candidates_pairwise req) hs
      (mem_candidates.mpr ⟨hk,f,hf,rfl⟩) (heq ▸ hle) heq

theorem Selected.scan {e : Identity} (hm : core.Layered req.direction)
    (hs : core.Selected req l e) :
    ∃ k f, l ≤ k ∧ k ≤ req.level ∧ core.lt.entry k req.direction = some f ∧ f.id = e.id ∧
      core.topDownScan req = ⟨req.nonce,req.target,k,e.id⟩ ∧
      ∀ l' ≤ req.level, ∀ e', core.lt.entry l' req.direction = some e' →
        req.direction.le e'.id req.target → l' ≤ k := by
  rcases core.scanBelow_cases req.direction req.target (req.level+1) with
    ⟨-,hpast⟩ | ⟨k,f,hk,hf,hfle,hscan,htop⟩
  · have hlt := hpast l (Nat.lt_succ_of_le hs.level_le) e hs.entry
    exact absurd hs.reach (Direction.not_le.mpr hlt)
  · have hlk := htop l (Nat.lt_succ_of_le hs.level_le) e hs.entry hs.reach
    have hfe : f.id = e.id := Direction.le_antisymm
      (hs.farthest k (Nat.lt_succ_iff.mp hk) f hf hfle) (hm l k e f hlk hs.entry hf)
    refine ⟨k,f,hlk,Nat.lt_succ_iff.mp hk,hf,hfe,by simp [topDownScan,hscan,hfe],?_⟩
    exact fun l' hl' e' he' hle' => htop l' (Nat.lt_succ_of_le hl') e' he' hle'

theorem refinesScan_of_past (hs : core.searchById req = .ok ⟨req.nonce,req.target,0,core.id⟩)
    (hpast : ∀ l ≤ req.level, ∀ e, core.lt.entry l req.direction = some e →
      req.direction.lt req.target e.id) : core.RefinesScan req ∧ core.FarthestOnce req := by
  have hscan : core.topDownScan req = ⟨req.nonce,req.target,0,core.id⟩ := by
    rcases core.scanBelow_cases req.direction req.target (req.level+1) with
      ⟨h,-⟩ | ⟨k,f,hk,hf,hfle,-,-⟩
    · simp [topDownScan,h]
    · exact absurd hfle (Direction.not_le.mpr (hpast k (Nat.lt_succ_iff.mp hk) f hf))
  refine ⟨⟨by rw [hs,hscan],fun res _ l hl e he hle _ => ?_⟩,fun l l' e e' hlt hl' he _ _ hle => ?_⟩
  · exact absurd hle (Direction.not_le.mpr (hpast l hl e he))
  · exact absurd hle (Direction.not_le.mpr (hpast l (by omega) e he))

/-- To the left the selected neighbour is reported at its only level exactly when the
table repeats no neighbour that the search could select. -/
theorem Selected.farthestOnce_iff {e : Identity} (hd : req.direction = .left)
    (hs : core.Selected req l e) : core.FarthestOnce req ↔
      ∀ k ≤ req.level, ∀ f, core.lt.entry k req.direction = some f → f.id = e.id → k = l := by
  have htie : ∀ k ≤ req.level, ∀ f, core.lt.entry k req.direction = some f → f.id = e.id →
      l ≤ k := by
    intro k hk f hf heq
    have h := hs.tie k hk f hf heq
    rwa [hd] at h
  constructor
  · intro h k hk f hf heq
    by_contra hne
    have hlk := htie k hk f hf heq
    obtain ⟨j,g,hj,hg,hgle,hlt⟩ := h l k e f (by omega) hk hs.entry hf heq.symm hs.reach
    exact Direction.not_le.mpr hlt (hs.farthest j hj g hg hgle)
  · intro h a b f g hab hb hf hg hfg hle
    refine ⟨l,e,hs.level_le,hs.entry,hs.reach,?_⟩
    apply Direction.lt_of_le_of_ne (hs.farthest a (by omega) f hf hle)
    intro hfe
    have ha := h a (by omega) f hf hfe
    have hb' := h b hb g hg (hfg.symm.trans hfe)
    omega

/-- In a layered table the local search refines the top-down scan exactly when it goes
right, or when no neighbour that it could select is repeated. -/
theorem refinesScan_iff (hl : req.level < lookupTableLevels) (hm : core.Layered req.direction) :
    core.RefinesScan req ↔ req.direction = .right ∨ core.FarthestOnce req := by
  rcases core.searchById_selected req hl with ⟨hs,hpast⟩ | ⟨l,e,hs,hsel⟩
  · obtain ⟨hr,ho⟩ := refinesScan_of_past hs hpast
    exact ⟨fun _ => .inr ho,fun _ => hr⟩
  · obtain ⟨k,f,hlk,hk,hf,hfe,hscan,htop⟩ := hsel.scan hm
    -- both name the same neighbour, so only its level can differ
    have hlevel : core.RefinesScan req ↔ k = l := by
      constructor
      · intro h
        have ha := h.answer
        rw [hs,hscan] at ha
        simpa using ha.symm
      · rintro rfl
        refine ⟨by rw [hs,hscan],fun res hres l' hl' e' he' hle' _ => ?_⟩
        obtain rfl := Except.ok.inj (hs.symm.trans hres)
        exact htop l' hl' e' he' hle'
    rw [hlevel]
    cases hd : req.direction with
    | right =>
      have htie := hsel.tie k hk f hf hfe
      rw [hd] at htie
      simp only [true_or,iff_true]
      exact le_antisymm htie hlk
    | left =>
      simp only [reduceCtorEq,false_or]
      rw [hsel.farthestOnce_iff hd]
      constructor
      · rintro rfl j hj g hg hge
        have h₁ := hsel.tie j hj g hg hge
        rw [hd] at h₁
        have h₂ := htop j hj g hg (hge ▸ hsel.reach)
        exact le_antisymm h₂ h₁
      · exact fun h => h k hk f hf hfe

theorem layered_of_single {x : Identifier}
    (h : ∀ l e, core.lt.entry l d = some e → e.id = x) : core.Layered d := by
  intro l l' e e' _ he he'
  rw [h l e he,h l' e' he']
  exact Direction.le_refl

def twiceLinked (d : Direction) (x : Identifier) : BaseCore :=
  let c : Identity := ⟨x,⟨Vector.replicate _ 0⟩,⟨"",""⟩⟩
  ⟨.ofByte 9,⟨Vector.replicate _ 0⟩,(ArrayLookupTable.new.put 0 d c).put 1 d c⟩

theorem layered_twiceLinked (d : Direction) (x : Identifier) : (twiceLinked d x).Layered d := by
  apply layered_of_single (x := x)
  intro l e he
  simp only [twiceLinked] at he
  rw [ArrayLookupTable.entry_put (by decide),ArrayLookupTable.entry_put (by decide)] at he
  simp only [ArrayLookupTable.entry_new] at he
  split at he
  · simp [← Option.some.inj he]
  · split at he
    · simp [← Option.some.inj he]
    · simp at he

theorem refinesScan_twice_right :
    let req : IdSearchReq := ⟨⟨0⟩,.ofByte 20,.ofByte 9,1,.right⟩
    (twiceLinked .right (.ofByte 12)).RefinesScan req ∧
      (twiceLinked .right (.ofByte 12)).searchById req = .ok ⟨⟨0⟩,.ofByte 20,1,.ofByte 12⟩ := by
  intro req
  have hl : req.level < lookupTableLevels := by decide
  exact ⟨(refinesScan_iff hl (layered_twiceLinked _ _)).mpr (.inl rfl),by decide +kernel⟩

/-- To the left the neighbour found at level 1 is reported at level 0. -/
theorem not_refinesScan_twice_left :
    let core := twiceLinked .left (.ofByte 5)
    let req : IdSearchReq := ⟨⟨0⟩,.ofByte 3,.ofByte 9,1,.left⟩
    req.level < lookupTableLevels ∧ core.Layered req.direction ∧
      core.searchById req = .ok ⟨⟨0⟩,.ofByte 3,0,.ofByte 5⟩ ∧
      core.topDownScan req = ⟨⟨0⟩,.ofByte 3,1,.ofByte 5⟩ ∧ ¬ core.RefinesScan req := by
  intro core req
  have hs : core.searchById req = .ok ⟨⟨0⟩,.ofByte 3,0,.ofByte 5⟩ := by decide +kernel
  have ht : core.topDownScan req = ⟨⟨0⟩,.ofByte 3,1,.ofByte 5⟩ := by decide +kernel
  refine ⟨by decide,layered_twiceLinked _ _,hs,ht,fun h => ?_⟩
  have ha := h.answer
  rw [hs,ht] at ha
  simp at ha

end BaseCore

end SkipGraph
