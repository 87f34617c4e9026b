import SkipGraph.LookupTable
import SkipGraph.Extremum

/-!
# The local core of a node

`BaseCore` owns the identifier, the membership vector and the lookup table, and
knows nothing about the network. The two spec lemmas of `searchById` replace the
collect-filter-select pipeline by what it selects, uniformly in the direction.
-/

namespace SkipGraph

open Extremum

structure BaseCore where
  id : Identifier
  memVec : MembershipVector
  lt : ArrayLookupTable
  deriving DecidableEq, Repr

namespace BaseCore

/-- The neighbours found at the given levels, or the first failed read. -/
def collectCandidates (lt : ArrayLookupTable) (direction : Direction) :
    List ℕ → Except Error (List (Identifier × ℕ))
  | [] => .ok []
  | lvl::lvls =>
    match lt.getEntry lvl direction with
    | .error e => .error (.wrapped (.searchLevel lvl) e)
    | .ok none => collectCandidates lt direction lvls
    | .ok (some identity) => (collectCandidates lt direction lvls).map ((identity.id,lvl)::·)

def selectCandidate (direction : Direction) (target : Identifier)
    (candidates : List (Identifier × ℕ)) : Option (Identifier × ℕ) :=
  match direction with
  | .left => minByKey Prod.fst (candidates.filter fun c => decide (c.1 ≥ target))
  | .right => maxByKey Prod.fst (candidates.filter fun c => decide (c.1 ≤ target))

def searchById (core : BaseCore) (req : IdSearchReq) : Except Error IdSearchRes :=
  match collectCandidates core.lt req.direction (List.range (req.level+1)) with
  | .error e => .error e
  | .ok candidates =>
    match selectCandidate req.direction req.target candidates with
    | some (id,level) => .ok ⟨req.nonce,req.target,level,id⟩
    | none => .ok ⟨req.nonce,req.target,0,core.id⟩

def maxLevel (core : BaseCore) : ℕ := core.lt.maxPopulatedLevel.getD 0

def neighborEntry (core : BaseCore) (level : ℕ) (direction : Direction) :
    Except Error (Option Identity) := core.lt.getEntry level direction

def prefixMatch (core : BaseCore) (candidate : MembershipVector) (level : ℕ) :
    Bool := decide (core.memVec.commonPrefixBit candidate ≥ level)

def tryLink (core : BaseCore) (level : ℕ) (direction : Direction)
    (candidate : Identity) : Except Error (LinkOutcome × BaseCore) :=
  (core.lt.tryLink level direction candidate).map fun r => (r.1,{ core with lt := r.2 })

def tryRelink (core : BaseCore) (level : ℕ) (direction : Direction)
    (claimant : Identity) : Except Error (RelinkOutcome × BaseCore) :=
  (core.lt.tryRelink level direction claimant).map fun r => (r.1,{ core with lt := r.2 })

variable {core : BaseCore} {direction : Direction} {target : Identifier}

theorem maxLevel_lt (core : BaseCore) : core.maxLevel < lookupTableLevels := by
  unfold maxLevel
  cases h : core.lt.maxPopulatedLevel with
  | none => decide
  | some l => simpa using List.mem_of_find?_eq_some h

theorem collectCandidates_eq (lt : ArrayLookupTable) (direction : Direction)
    (lvls : List ℕ) (h : ∀ l ∈ lvls, l < lookupTableLevels) :
    collectCandidates lt direction lvls =
      .ok (lvls.filterMap fun l => (lt.entry l direction).map fun e => (e.id,l)) := by
  induction lvls with
  | nil => rfl
  | cons l lvls ih =>
    have hh := ih fun m hm => h m (by simp [hm])
    simp only [collectCandidates,ArrayLookupTable.getEntry_eq (h l (by simp)),hh]
    cases he : lt.entry l direction <;> simp [he,Except.map]

/-- A selected candidate is one of the list, not past the target, and no other such
candidate is nearer to the target. -/
theorem selectCandidate_some {cs : List (Identifier × ℕ)}
    {m : Identifier × ℕ} (h : selectCandidate direction target cs = some m) :
    m ∈ cs ∧ direction.le m.1 target ∧
      ∀ c ∈ cs, direction.le c.1 target → direction.le c.1 m.1 := by
  cases direction with
  | left =>
    obtain ⟨hmem,hmin⟩ := minByKey_eq_some h
    simp only [List.mem_filter,decide_eq_true_eq] at hmem hmin
    exact ⟨hmem.1,hmem.2,fun c hc hle => hmin c ⟨hc,hle⟩⟩
  | right =>
    obtain ⟨hmem,hmax⟩ := maxByKey_eq_some h
    simp only [List.mem_filter,decide_eq_true_eq] at hmem hmax
    exact ⟨hmem.1,hmem.2,fun c hc hle => hmax c ⟨hc,hle⟩⟩

theorem selectCandidate_none {cs : List (Identifier × ℕ)}
    (h : selectCandidate direction target cs = none) : ∀ c ∈ cs, direction.lt target c.1 := by
  intro c hc
  apply Direction.not_le.mp
  intro hle
  cases direction with
  | left => exact List.filter_eq_nil_iff.mp (minByKey_eq_none.mp h) c hc (decide_eq_true hle)
  | right => exact List.filter_eq_nil_iff.mp (maxByKey_eq_none.mp h) c hc (decide_eq_true hle)

def candidates (core : BaseCore) (req : IdSearchReq) : List (Identifier × ℕ) :=
  (List.range (req.level+1)).filterMap fun l =>
    (core.lt.entry l req.direction).map fun e => (e.id,l)

theorem mem_candidates {req : IdSearchReq} {id : Identifier} {l : ℕ} :
    (id,l) ∈ core.candidates req ↔
      l ≤ req.level ∧ ∃ e, core.lt.entry l req.direction = some e ∧ e.id = id := by
  simp only [candidates,List.mem_filterMap,List.mem_range,Nat.lt_succ_iff,Option.map_eq_some_iff,
    Prod.mk.injEq]
  constructor
  · rintro ⟨l',hl,e,he,hid,rfl⟩
    exact ⟨hl,e,he,hid⟩
  · rintro ⟨hl,e,he,hid⟩
    exact ⟨l,hl,e,he,hid,rfl⟩

theorem searchById_eq (core : BaseCore) (req : IdSearchReq) (hl : req.level < lookupTableLevels) :
    core.searchById req =
      match selectCandidate req.direction req.target (core.candidates req) with
      | some (id,level) => .ok ⟨req.nonce,req.target,level,id⟩
      | none => .ok ⟨req.nonce,req.target,0,core.id⟩ := by
  have hcol := collectCandidates_eq core.lt req.direction (List.range (req.level+1))
    fun l hm => by
      have := List.mem_range.mp hm
      omega
  simp [searchById,hcol,candidates]

theorem collectCandidates_error (lt : ArrayLookupTable) (direction : Direction) {l : ℕ}
    (lvls rest : List ℕ) (h : ∀ l ∈ lvls, l < lookupTableLevels) (hl : lookupTableLevels ≤ l) :
    collectCandidates lt direction (lvls++l::rest) =
      .error (.wrapped (.searchLevel l) (.levelOutOfRange l)) := by
  induction lvls with
  | nil => simp [collectCandidates,ArrayLookupTable.getEntry,Nat.not_lt.mpr hl]
  | cons m lvls ih =>
    have hh := ih fun k hk => h k (by simp [hk])
    simp only [List.cons_append,collectCandidates,ArrayLookupTable.getEntry_eq (h m (by simp)),hh]
    cases lt.entry m direction <;> rfl

/-- A search beyond the table fails at the first missing level, even when a neighbour below
would do. -/
theorem searchById_error (core : BaseCore) {req : IdSearchReq}
    (hl : lookupTableLevels ≤ req.level) : core.searchById req =
      .error (.wrapped (.searchLevel lookupTableLevels) (.levelOutOfRange lookupTableLevels)) := by
  obtain ⟨k,hk⟩ := Nat.exists_eq_add_of_le hl
  have hrange : List.range (req.level+1) = List.range lookupTableLevels ++ lookupTableLevels ::
      (List.range k).map fun i => lookupTableLevels+1+i := by
    rw [show req.level+1 = lookupTableLevels+1+k by omega,List.range_add,List.range_succ,
      List.append_assoc]
    rfl
  rw [searchById,hrange,collectCandidates_error _ _ _ _ (fun l => List.mem_range.mp) le_rfl]

theorem candidates_none {req : IdSearchReq}
    (h : selectCandidate req.direction req.target (core.candidates req) = none) :
    ∀ l ≤ req.level, ∀ e, core.lt.entry l req.direction = some e →
      req.direction.lt req.target e.id := fun _ hle e he =>
  selectCandidate_none h _ (mem_candidates.mpr ⟨hle,e,he,rfl⟩)

theorem candidates_some {req : IdSearchReq} {id : Identifier} {l : ℕ}
    (h : selectCandidate req.direction req.target (core.candidates req) = some (id,l)) :
    l ≤ req.level ∧ ∃ e, core.lt.entry l req.direction = some e ∧ e.id = id ∧
      req.direction.le e.id req.target ∧
      ∀ l' ≤ req.level, ∀ e', core.lt.entry l' req.direction = some e' →
        req.direction.le e'.id req.target → req.direction.le e'.id e.id := by
  obtain ⟨hm,hle,hbest⟩ := selectCandidate_some h
  obtain ⟨hl,e,he,rfl⟩ := mem_candidates.mp hm
  refine ⟨hl,e,he,rfl,hle,fun l' hl' e' he' hle' => ?_⟩
  exact hbest _ (mem_candidates.mpr ⟨hl',e',he',rfl⟩) hle'

/-- What a local search can return at a real level: its own identifier when every
populated slot up to that level is past the target, or else the slot nearest to it. -/
theorem searchById_cases (core : BaseCore) (req : IdSearchReq)
    (hl : req.level < lookupTableLevels) :
    (core.searchById req = .ok ⟨req.nonce,req.target,0,core.id⟩ ∧
      ∀ l ≤ req.level, ∀ e, core.lt.entry l req.direction = some e →
        req.direction.lt req.target e.id) ∨
    (∃ l e, l ≤ req.level ∧ core.lt.entry l req.direction = some e ∧
      core.searchById req = .ok ⟨req.nonce,req.target,l,e.id⟩ ∧
      req.direction.le e.id req.target ∧
      ∀ l' ≤ req.level, ∀ e', core.lt.entry l' req.direction = some e' →
        req.direction.le e'.id req.target → req.direction.le e'.id e.id) := by
  rw [searchById_eq core req hl]
  cases hs : selectCandidate req.direction req.target (core.candidates req) with
  | none => exact .inl ⟨rfl,candidates_none hs⟩
  | some m =>
    obtain ⟨id,l⟩ := m
    obtain ⟨hl',e,he,rfl,hle,hbest⟩ := candidates_some hs
    exact .inr ⟨l,e,hl',he,rfl,hle,hbest⟩

end BaseCore

end SkipGraph
