import SkipGraph.LookupTable
import SkipGraph.Transition
import SkipGraph.Extremum
import Mathlib.Data.List.FinRange

/-!
# What a lookup table is for

A table is a partial map from slots to identities. The eight operations are stated on
such maps in the words of the protocol document, `try_link` by a rule of its own, and
the two vectors are shown to behave like the map under every sequence of operations.
-/

namespace SkipGraph

open Transition Extremum

inductive TableOp
  | updateEntry (identity : Identity) (level : ℕ) (direction : Direction)
  | removeEntry (level : ℕ) (direction : Direction)
  | getEntry (level : ℕ) (direction : Direction)
  | tryLink (level : ℕ) (direction : Direction) (candidate : Identity)
  | tryRelink (level : ℕ) (direction : Direction) (claimant : Identity)
  | leftNeighbors
  | rightNeighbors
  | maxPopulatedLevel
  deriving DecidableEq, Repr

def TableOp.slot? : TableOp → Option (ℕ × Direction)
  | updateEntry _ level direction => some (level,direction)
  | removeEntry level direction => some (level,direction)
  | getEntry level direction => some (level,direction)
  | tryLink level direction _ => some (level,direction)
  | tryRelink level direction _ => some (level,direction)
  | leftNeighbors => none
  | rightNeighbors => none
  | maxPopulatedLevel => none

inductive TableResult
  | done
  | entry (e : Option Identity)
  | link (outcome : LinkOutcome)
  | relink (outcome : RelinkOutcome)
  | neighbors (entries : List (ℕ × Identity))
  | level (l : Option ℕ)
  deriving DecidableEq, Repr

/-- The slots of a table as a partial map. -/
def SlotMap := Fin lookupTableLevels → Direction → Option Identity

namespace SlotMap

def empty : SlotMap := fun _ _ => none

def write (m : SlotMap) (l : Fin lookupTableLevels) (d : Direction) (e : Option Identity) :
    SlotMap := fun l' d' => if l' = l ∧ d' = d then e else m l' d'

/-- The rule of `try_link`: forward to an entry before the candidate, else install it. -/
def tryLink (m : SlotMap) (l : Fin lookupTableLevels) (d : Direction) (candidate : Identity) :
    LinkOutcome × SlotMap :=
  match m l d with
  | some existing =>
    if d.lt existing.id candidate.id then (.forward existing,m)
    else (.linkedDirectly,m.write l d (some candidate))
  | none => (.linkedDirectly,m.write l d (some candidate))

/-- The rule of `try_relink`, which also tells an entry equal to the claimant. -/
def tryRelink (m : SlotMap) (l : Fin lookupTableLevels) (d : Direction) (claimant : Identity) :
    RelinkOutcome × SlotMap :=
  match m l d with
  | some existing =>
    if existing = claimant then (.alreadyConsistent,m)
    else if d.lt existing.id claimant.id then (.forward existing,m)
    else (.relinked (some existing),m.write l d (some claimant))
  | none => (.relinked none,m.write l d (some claimant))

def neighbors (m : SlotMap) (d : Direction) : List (ℕ × Identity) :=
  (List.finRange lookupTableLevels).filterMap fun l => (m l d).map fun e => (l.val,e)

def maxPopulatedLevel (m : SlotMap) : Option ℕ :=
  ((m.neighbors .left++m.neighbors .right).map Prod.fst).max?

/-- An operation on a slot fails beyond the table and changes nothing there. -/
def atLevel (m : SlotMap) (level : ℕ)
    (act : Fin lookupTableLevels → TableResult × SlotMap) : Except Error TableResult × SlotMap :=
  if h : level < lookupTableLevels then
    let r := act ⟨level,h⟩
    (.ok r.1,r.2)
  else (.error (.levelOutOfRange level),m)

def exec (m : SlotMap) : TableOp → Except Error TableResult × SlotMap
  | .updateEntry identity level d => m.atLevel level fun l => (.done,m.write l d (some identity))
  | .removeEntry level d => m.atLevel level fun l => (.done,m.write l d none)
  | .getEntry level d => m.atLevel level fun l => (.entry (m l d),m)
  | .tryLink level d candidate => m.atLevel level fun l =>
    let r := m.tryLink l d candidate
    (.link r.1,r.2)
  | .tryRelink level d claimant => m.atLevel level fun l =>
    let r := m.tryRelink l d claimant
    (.relink r.1,r.2)
  | .leftNeighbors => (.ok (.neighbors (m.neighbors .left)),m)
  | .rightNeighbors => (.ok (.neighbors (m.neighbors .right)),m)
  | .maxPopulatedLevel => (.ok (.level m.maxPopulatedLevel),m)

end SlotMap

namespace ArrayLookupTable

/-- One call on the table; only a successful call hands back a changed table. -/
def exec (t : ArrayLookupTable) : TableOp → Except Error TableResult × ArrayLookupTable
  | .updateEntry identity level d =>
    let r := t.updateEntry identity level d
    (r.1.map fun _ => .done,r.2)
  | .removeEntry level d =>
    let r := t.removeEntry level d
    (r.1.map fun _ => .done,r.2)
  | .getEntry level d => ((t.getEntry level d).map .entry,t)
  | .tryLink level d candidate =>
    match t.tryLink level d candidate with
    | .ok (outcome,t') => (.ok (.link outcome),t')
    | .error e => (.error e,t)
  | .tryRelink level d claimant =>
    match t.tryRelink level d claimant with
    | .ok (outcome,t') => (.ok (.relink outcome),t')
    | .error e => (.error e,t)
  | .leftNeighbors => (.ok (.neighbors t.leftNeighbors),t)
  | .rightNeighbors => (.ok (.neighbors t.rightNeighbors),t)
  | .maxPopulatedLevel => (.ok (.level t.maxPopulatedLevel),t)

def slots (t : ArrayLookupTable) : SlotMap := fun l d => t.entry l d

variable {t t' : ArrayLookupTable} {level l : ℕ} {d direction : Direction} {c e : Identity}

@[simp] theorem slots_new : new.slots = SlotMap.empty := by
  funext l d
  exact entry_new l d

theorem slots_put (hl : level < lookupTableLevels) :
    (t.put level d c).slots = t.slots.write ⟨level,hl⟩ d (some c) := by
  funext l d'
  simp [slots,entry_put hl,SlotMap.write,Fin.ext_iff]

theorem slots_clear (hl : level < lookupTableLevels) :
    (t.clear level d).slots = t.slots.write ⟨level,hl⟩ d none := by
  funext l d'
  simp [slots,entry_clear hl,SlotMap.write,Fin.ext_iff]

theorem write_slots_self (hl : level < lookupTableLevels) (h : t.entry level d = some c) :
    t.slots.write ⟨level,hl⟩ d (some c) = t.slots := by
  funext l d'
  simp only [SlotMap.write,Fin.ext_iff,slots]
  exact (put_entry_self h l d').symm

theorem tryRelink_slots (hl : level < lookupTableLevels) :
    ∃ t', t.tryRelink level d c = .ok ((t.slots.tryRelink ⟨level,hl⟩ d c).1,t') ∧
      t'.slots = (t.slots.tryRelink ⟨level,hl⟩ d c).2 := by
  have hside : (t.side d)[level] = t.entry level d := by simp [entry,hl]
  have hslot : t.slots ⟨level,hl⟩ d = t.entry level d := rfl
  simp only [tryRelink,SlotMap.tryRelink,hl,dif_pos,hside,hslot]
  cases t.entry level d with
  | none => exact ⟨_,rfl,slots_put hl⟩
  | some e =>
    by_cases hec : e = c
    · exact ⟨t,by cases d <;> simp [hec],by simp [hec]⟩
    · by_cases hlt : d.lt e.id c.id
      · refine ⟨t,?_,by simp [hec,hlt]⟩
        cases d <;> simp only [Direction.lt] at hlt <;> simp [hec,hlt,Direction.lt]
      · refine ⟨t.put level d c,?_,by simp [hec,hlt,slots_put hl]⟩
        cases d <;> simp only [Direction.lt] at hlt <;> simp [hec,hlt,Direction.lt]

/-- Delegating to `try_relink` gives what the rule of `try_link` says: a candidate that
already holds the slot is reported and stored like one that was just installed. -/
theorem tryLink_slots (hl : level < lookupTableLevels) :
    ∃ t', t.tryLink level d c = .ok ((t.slots.tryLink ⟨level,hl⟩ d c).1,t') ∧
      t'.slots = (t.slots.tryLink ⟨level,hl⟩ d c).2 := by
  obtain ⟨t',ht,hs⟩ := tryRelink_slots (t := t) (d := d) (c := c) hl
  have hslot : t.slots ⟨level,hl⟩ d = t.entry level d := rfl
  simp only [SlotMap.tryRelink,hslot] at ht hs
  simp only [tryLink,ht,SlotMap.tryLink,hslot]
  cases he : t.entry level d with
  | none => exact ⟨t',by simp,by simpa [he] using hs⟩
  | some e =>
    by_cases hec : e = c
    · subst hec
      refine ⟨t',by simp,?_⟩
      simpa [he,write_slots_self hl he] using hs
    · by_cases hlt : d.lt e.id c.id
      · exact ⟨t',by simp [hec,hlt],by simpa [he,hec,hlt] using hs⟩
      · exact ⟨t',by simp [hec,hlt],by simpa [he,hec,hlt] using hs⟩

theorem neighbors_eq_filterMap (slots : List (Option Identity)) :
    neighbors slots = slots.zipIdx.filterMap fun p => p.1.map fun e => (p.2,e) := by
  have hloop : ∀ (ps : List (Option Identity × ℕ)) (acc : List (ℕ × Identity)),
      ps.foldl (fun acc p =>
        match p.1 with
        | some identity => acc++[(p.2,identity)]
        | none => acc) acc = acc ++ ps.filterMap fun p => p.1.map fun e => (p.2,e) := by
    intro ps
    induction ps with
    | nil => simp
    | cons p ps ih =>
      intro acc
      obtain ⟨o,i⟩ := p
      cases o <;> simp [ih]
  exact (hloop slots.zipIdx []).trans (List.nil_append _)

theorem zipIdx_vector {α : Type*} {n : ℕ} (v : Vector α n) :
    v.toList.zipIdx = (List.finRange n).map fun i => (v[i],i.val) := by
  apply List.ext_getElem
  · simp
  · intro i h₁ h₂
    simp

theorem neighbors_side (d : Direction) :
    neighbors (t.side d).toList = t.slots.neighbors d := by
  rw [neighbors_eq_filterMap,zipIdx_vector,List.filterMap_map,SlotMap.neighbors]
  apply List.filterMap_congr
  intro l _
  simp [slots,entry]

theorem leftNeighbors_eq : t.leftNeighbors = t.slots.neighbors .left := neighbors_side .left

theorem rightNeighbors_eq : t.rightNeighbors = t.slots.neighbors .right := neighbors_side .right

theorem mem_neighbors : (l,e) ∈ t.slots.neighbors d ↔ t.entry l d = some e := by
  simp only [SlotMap.neighbors,List.mem_filterMap,List.mem_finRange,true_and,
    Option.map_eq_some_iff,Prod.mk.injEq]
  constructor
  · rintro ⟨i,e',he,rfl,rfl⟩
    exact he
  · intro he
    exact ⟨⟨l,lt_of_entry he⟩,e,he,rfl,rfl⟩

theorem neighbors_increasing (m : SlotMap) (d : Direction) :
    ((m.neighbors d).map Prod.fst).Pairwise (· < ·) := by
  rw [SlotMap.neighbors,List.map_filterMap,List.pairwise_filterMap]
  apply (List.pairwise_lt_finRange lookupTableLevels).imp
  intro i j hij a ha b hb
  simp only [Option.map_map,Option.map_eq_some_iff] at ha hb
  obtain ⟨-,-,rfl⟩ := ha
  obtain ⟨-,-,rfl⟩ := hb
  exact hij

theorem mem_levels : l ∈ (t.slots.neighbors .left++t.slots.neighbors .right).map Prod.fst ↔
    ((t.entry l .left).isSome || (t.entry l .right).isSome) = true := by
  simp only [List.map_append,List.mem_append,List.mem_map,Prod.exists,exists_and_right,
    exists_eq_right,mem_neighbors,Bool.or_eq_true,Option.isSome_iff_exists]

theorem maxPopulatedLevel_eq : t.maxPopulatedLevel = t.slots.maxPopulatedLevel := by
  apply Option.ext
  intro l
  rw [maxPopulatedLevel,find?_range_reverse_eq_some,SlotMap.maxPopulatedLevel,
    List.max?_eq_some_iff]
  simp only [mem_levels]
  have hlt : ∀ j, ((t.entry j .left).isSome || (t.entry j .right).isSome) = true →
      j < lookupTableLevels := by
    intro j hj
    rcases Bool.or_eq_true_iff.mp hj with h | h
    · obtain ⟨e,he⟩ := Option.isSome_iff_exists.mp h
      exact lt_of_entry he
    · obtain ⟨e,he⟩ := Option.isSome_iff_exists.mp h
      exact lt_of_entry he
  constructor
  · rintro ⟨-,hl,hmax⟩
    exact ⟨hl,fun j hj => hmax j (hlt j hj) hj⟩
  · rintro ⟨hl,hmax⟩
    exact ⟨hlt l hl,hl,fun j _ hj => hmax j hj⟩

/-- One call has the same result on the table and on its map, and keeps the two together. -/
theorem exec_slots (t : ArrayLookupTable) (op : TableOp) :
    (t.exec op).1 = (t.slots.exec op).1 ∧ (t.exec op).2.slots = (t.slots.exec op).2 := by
  cases op with
  | updateEntry identity level d =>
    by_cases hl : level < lookupTableLevels
    · simp [exec,SlotMap.exec,SlotMap.atLevel,updateEntry,hl,Nat.not_le.mpr hl,slots_put hl,Except.map]
    · simp [exec,SlotMap.exec,SlotMap.atLevel,updateEntry,hl,Nat.not_lt.mp hl,Except.map]
  | removeEntry level d =>
    by_cases hl : level < lookupTableLevels
    · simp [exec,SlotMap.exec,SlotMap.atLevel,removeEntry,hl,Nat.not_le.mpr hl,slots_clear hl,
        Except.map]
    · simp [exec,SlotMap.exec,SlotMap.atLevel,removeEntry,hl,Nat.not_lt.mp hl,Except.map]
  | getEntry level d =>
    by_cases hl : level < lookupTableLevels
    · simp [exec,SlotMap.exec,SlotMap.atLevel,getEntry_eq,hl,Except.map,slots]
    · simp [exec,SlotMap.exec,SlotMap.atLevel,getEntry,hl,Except.map]
  | tryLink level d candidate =>
    by_cases hl : level < lookupTableLevels
    · obtain ⟨t',ht,hs⟩ := tryLink_slots (t := t) (d := d) (c := candidate) hl
      simp [exec,SlotMap.exec,SlotMap.atLevel,hl,ht,hs]
    · simp [exec,SlotMap.exec,SlotMap.atLevel,tryLink,tryRelink,hl]
  | tryRelink level d claimant =>
    by_cases hl : level < lookupTableLevels
    · obtain ⟨t',ht,hs⟩ := tryRelink_slots (t := t) (d := d) (c := claimant) hl
      simp [exec,SlotMap.exec,SlotMap.atLevel,hl,ht,hs]
    · simp [exec,SlotMap.exec,SlotMap.atLevel,tryRelink,hl]
  | leftNeighbors => simp [exec,SlotMap.exec,leftNeighbors_eq]
  | rightNeighbors => simp [exec,SlotMap.exec,rightNeighbors_eq]
  | maxPopulatedLevel => simp [exec,SlotMap.exec,maxPopulatedLevel_eq]

theorem exec_beyond {op : TableOp} (h : op.slot? = some (level,d))
    (hl : lookupTableLevels ≤ level) : t.exec op = (.error (.levelOutOfRange level),t) := by
  have hn : ¬ level < lookupTableLevels := Nat.not_lt.mpr hl
  cases op <;> simp only [TableOp.slot?,Option.some.injEq,Prod.mk.injEq,reduceCtorEq] at h <;>
    obtain ⟨rfl,rfl⟩ := h <;>
    simp [exec,updateEntry,removeEntry,getEntry,tryLink,tryRelink,hl,hn,Except.map]

theorem atLevel_ok {m : SlotMap} {act : Fin lookupTableLevels → TableResult × SlotMap}
    (hl : level < lookupTableLevels) : ∃ r, (m.atLevel level act).1 = .ok r :=
  ⟨(act ⟨level,hl⟩).1,by simp [SlotMap.atLevel,hl]⟩

theorem exec_within {op : TableOp}
    (h : ∀ level d, op.slot? = some (level,d) → level < lookupTableLevels) :
    ∃ r, (t.exec op).1 = .ok r := by
  rw [(exec_slots t op).1]
  cases op with
  | leftNeighbors => exact ⟨_,rfl⟩
  | rightNeighbors => exact ⟨_,rfl⟩
  | maxPopulatedLevel => exact ⟨_,rfl⟩
  | _ => exact atLevel_ok (h _ _ rfl)

theorem exec_frame {op : TableOp} (h : op.slot? ≠ some (l,d)) :
    (t.exec op).2.entry l d = t.entry l d := by
  by_cases hl : l < lookupTableLevels
  · have hs : (t.exec op).2.entry l d = (t.slots.exec op).2 ⟨l,hl⟩ d :=
      congrFun (congrFun (exec_slots t op).2 ⟨l,hl⟩) d
    have hw : ∀ (level : ℕ) (hlv : level < lookupTableLevels) (d' : Direction) (e : Option Identity),
        some (level,d') ≠ some (l,d) → t.slots.write ⟨level,hlv⟩ d' e ⟨l,hl⟩ d = t.entry l d := by
      intro level hlv d' e hne
      have hne' : ¬ (l = level ∧ d = d') := by
        rintro ⟨rfl,rfl⟩
        exact hne rfl
      simp [SlotMap.write,Fin.ext_iff,hne',slots]
    rw [hs]
    cases op with
    | updateEntry identity level d' =>
      simp only [SlotMap.exec,SlotMap.atLevel]
      split
      · exact hw level _ d' _ h
      · rfl
    | removeEntry level d' =>
      simp only [SlotMap.exec,SlotMap.atLevel]
      split
      · exact hw level _ d' _ h
      · rfl
    | getEntry level d' =>
      simp only [SlotMap.exec,SlotMap.atLevel]
      split <;> rfl
    | tryLink level d' candidate =>
      simp only [SlotMap.exec,SlotMap.atLevel,SlotMap.tryLink]
      split
      · split
        · split
          · rfl
          · exact hw level _ d' _ h
        · exact hw level _ d' _ h
      · rfl
    | tryRelink level d' claimant =>
      simp only [SlotMap.exec,SlotMap.atLevel,SlotMap.tryRelink]
      split
      · split
        · split
          · rfl
          · split
            · rfl
            · exact hw level _ d' _ h
        · exact hw level _ d' _ h
      · rfl
    | _ => rfl
  · simp [entry,hl]

theorem exec_ok_or_beyond (t : ArrayLookupTable) (op : TableOp) :
    (∃ level d, op.slot? = some (level,d) ∧ lookupTableLevels ≤ level) ∨
    ∃ res, (t.exec op).1 = .ok res := by
  by_cases h : ∃ level d, op.slot? = some (level,d) ∧ lookupTableLevels ≤ level
  · exact .inl h
  · refine .inr (exec_within fun level d hs => ?_)
    by_contra hl
    exact h ⟨level,d,hs,Nat.not_lt.mp hl⟩

theorem exec_error_iff {op : TableOp} : (∃ e, (t.exec op).1 = .error e) ↔
    ∃ level d, op.slot? = some (level,d) ∧ lookupTableLevels ≤ level := by
  constructor
  · rintro ⟨e,he⟩
    rcases t.exec_ok_or_beyond op with h | ⟨res,h⟩
    · exact h
    · simp [he] at h
  · rintro ⟨level,d,hs,hl⟩
    exact ⟨_,congrArg Prod.fst (exec_beyond hs hl)⟩

theorem exec_error_unchanged {op : TableOp} {e : Error} (he : (t.exec op).1 = .error e) :
    (t.exec op).2 = t := by
  obtain ⟨level,d,hs,hl⟩ := exec_error_iff.mp ⟨e,he⟩
  exact congrArg Prod.snd (exec_beyond hs hl)

theorem maxPopulatedLevel_eq_max (t : ArrayLookupTable) : t.maxPopulatedLevel =
    ((t.leftNeighbors++t.rightNeighbors).map Prod.fst).max? := by
  rw [maxPopulatedLevel_eq,leftNeighbors_eq,rightNeighbors_eq]
  rfl

/-- Under every sequence of calls the table answers as its slot map does and ends with the
map's contents. In the state reached, a call fails exactly when it names a level beyond the
table, which changes nothing; it touches no slot but its own; the neighbour lists name the
populated slots of their side once each by increasing level; and the highest populated level
is the maximum over both lists. -/
theorem table_refines_slot_map (ops : List TableOp) :
    let r := execute exec new ops
    let m := execute SlotMap.exec SlotMap.empty ops
    r.1 = m.1 ∧ r.2.slots = m.2 ∧
    (∀ op, (∃ e, (r.2.exec op).1 = .error e) ↔
      ∃ level d, op.slot? = some (level,d) ∧ lookupTableLevels ≤ level) ∧
    (∀ op e, (r.2.exec op).1 = .error e → (r.2.exec op).2 = r.2) ∧
    (∀ op l d, op.slot? ≠ some (l,d) → (r.2.exec op).2.entry l d = r.2.entry l d) ∧
    (r.2.leftNeighbors.map Prod.fst).Pairwise (· < ·) ∧
    (r.2.rightNeighbors.map Prod.fst).Pairwise (· < ·) ∧
    (∀ l e, (l,e) ∈ r.2.leftNeighbors ↔ r.2.entry l .left = some e) ∧
    (∀ l e, (l,e) ∈ r.2.rightNeighbors ↔ r.2.entry l .right = some e) ∧
    r.2.maxPopulatedLevel = ((r.2.leftNeighbors++r.2.rightNeighbors).map Prod.fst).max? ∧
    (r.2.maxPopulatedLevel = none ↔ r.2.leftNeighbors = [] ∧ r.2.rightNeighbors = []) := by
  intro r m
  have hstep : ∀ (t : ArrayLookupTable) (m : SlotMap) (op : TableOp), t.slots = m →
      (t.exec op).1 = (m.exec op).1 ∧ (t.exec op).2.slots = (m.exec op).2 := by
    rintro t _ op rfl
    exact exec_slots t op
  obtain ⟨hres,hcont⟩ := execute_simulates hstep slots_new ops
  refine ⟨hres,hcont,fun op => exec_error_iff,fun op e he => exec_error_unchanged he,
    fun op l d h => exec_frame h,?_,?_,?_,?_,r.2.maxPopulatedLevel_eq_max,?_⟩
  · rw [leftNeighbors_eq]
    exact neighbors_increasing _ _
  · rw [rightNeighbors_eq]
    exact neighbors_increasing _ _
  · intro l e
    rw [leftNeighbors_eq]
    exact mem_neighbors
  · intro l e
    rw [rightNeighbors_eq]
    exact mem_neighbors
  · rw [maxPopulatedLevel_eq_max]
    simp

end ArrayLookupTable

end SkipGraph
