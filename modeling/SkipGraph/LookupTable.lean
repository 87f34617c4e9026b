import SkipGraph.Model

/-!
# The lookup table

Two parallel vectors of optional identities, one for each direction. `entry` is
the total view of a slot that every later proof works with; `tryLink_cases` says
once and for all what the compare-then-act decision can do.
-/

namespace SkipGraph

/-- The number of levels, one for each bit of an identifier. -/
def lookupTableLevels : ℕ := identifierSizeBytes * 8

inductive LinkOutcome
  | linkedDirectly
  | forward (existing : Identity)
  deriving DecidableEq, Repr

inductive RelinkOutcome
  | alreadyConsistent
  | forward (existing : Identity)
  | relinked (evicted : Option Identity)
  deriving DecidableEq, Repr

structure ArrayLookupTable where
  left : Vector (Option Identity) lookupTableLevels
  right : Vector (Option Identity) lookupTableLevels
  deriving DecidableEq, Repr

namespace ArrayLookupTable

def new : ArrayLookupTable := ⟨Vector.replicate _ none,Vector.replicate _ none⟩

def side (t : ArrayLookupTable) : Direction → Vector (Option Identity) lookupTableLevels
  | .left => t.left
  | .right => t.right

/-- The assignment `inner.left[level] = Some(identity)` or its right counterpart. -/
def put (t : ArrayLookupTable) (level : ℕ) (direction : Direction)
    (identity : Identity) : ArrayLookupTable :=
  match direction with
  | .left => { t with left := t.left.setIfInBounds level (some identity) }
  | .right => { t with right := t.right.setIfInBounds level (some identity) }

def clear (t : ArrayLookupTable) (level : ℕ) (direction : Direction) : ArrayLookupTable :=
  match direction with
  | .left => { t with left := t.left.setIfInBounds level none }
  | .right => { t with right := t.right.setIfInBounds level none }

def updateEntry (t : ArrayLookupTable) (identity : Identity) (level : ℕ) (direction : Direction) :
    Except Error Unit × ArrayLookupTable :=
  if level ≥ lookupTableLevels then (.error (.levelOutOfRange level),t)
  else (.ok (),t.put level direction identity)

def removeEntry (t : ArrayLookupTable) (level : ℕ) (direction : Direction) :
    Except Error Unit × ArrayLookupTable :=
  if level ≥ lookupTableLevels then (.error (.levelOutOfRange level),t)
  else (.ok (),t.clear level direction)

def getEntry (t : ArrayLookupTable) (level : ℕ) (direction : Direction) :
    Except Error (Option Identity) :=
  if h : level < lookupTableLevels then .ok ((t.side direction)[level])
  else .error (.levelOutOfRange level)

/-- The three-way decision against one read of the slot: an equal entry is left
alone, an entry strictly between forwards, and anything else is evicted. -/
def tryRelink (t : ArrayLookupTable) (level : ℕ) (direction : Direction)
    (claimant : Identity) : Except Error (RelinkOutcome × ArrayLookupTable) :=
  if h : level < lookupTableLevels then
    let existing := (t.side direction)[level]
    let relink := (.relinked existing,t.put level direction claimant)
    .ok <| match existing,direction with
      | some existing,.right =>
        if existing = claimant then (.alreadyConsistent,t)
        else if existing.id < claimant.id then (.forward existing,t)
        else relink
      | some existing,.left =>
        if existing = claimant then (.alreadyConsistent,t)
        else if existing.id > claimant.id then (.forward existing,t)
        else relink
      | none,_ => relink
  else .error (.levelOutOfRange level)

/-- `try_link` maps the outcome of `try_relink`. -/
def tryLink (t : ArrayLookupTable) (level : ℕ) (direction : Direction)
    (candidate : Identity) : Except Error (LinkOutcome × ArrayLookupTable) :=
  match t.tryRelink level direction candidate with
  | .error e => .error e
  | .ok (.forward existing,t') => .ok (.forward existing,t')
  | .ok (.alreadyConsistent,t') => .ok (.linkedDirectly,t')
  | .ok (.relinked _,t') => .ok (.linkedDirectly,t')

/-- The contents of a slot; levels beyond the table hold nothing. -/
def entry (t : ArrayLookupTable) (level : ℕ) (direction : Direction) :
    Option Identity :=
  if h : level < lookupTableLevels then (t.side direction)[level] else none

/-- The highest level with an entry on either side. -/
def maxPopulatedLevel (t : ArrayLookupTable) : Option ℕ :=
  (List.range lookupTableLevels).reverse.find? fun level =>
    (t.entry level .left).isSome || (t.entry level .right).isSome

/-- The loop of `left_neighbors` and `right_neighbors`: push every populated slot. -/
def neighbors (slots : List (Option Identity)) : List (ℕ × Identity) :=
  slots.zipIdx.foldl (fun acc p =>
    match p.1 with
    | some identity => acc++[(p.2,identity)]
    | none => acc) []

def leftNeighbors (t : ArrayLookupTable) : List (ℕ × Identity) := neighbors t.left.toList

def rightNeighbors (t : ArrayLookupTable) : List (ℕ × Identity) := neighbors t.right.toList

variable {t t' : ArrayLookupTable} {level l : ℕ} {direction d : Direction}
  {c e : Identity}

theorem lt_of_entry (h : t.entry l d = some e) : l < lookupTableLevels := by
  by_contra hl
  simp [entry,hl] at h

theorem getEntry_eq (hl : level < lookupTableLevels) :
    t.getEntry level direction = .ok (t.entry level direction) := by
  simp [getEntry,entry,hl]

@[simp] theorem entry_new (l : ℕ) (d : Direction) : new.entry l d = none := by
  cases d <;> simp [entry,new,side]

theorem ext_entry (h : ∀ l d, t.entry l d = t'.entry l d) : t = t' := by
  have hside : ∀ d, t.side d = t'.side d := by
    intro d
    apply Vector.ext
    intro l hl
    simpa [entry,hl] using h l d
  cases t
  cases t'
  exact congrArg₂ mk (hside .left) (hside .right)

theorem entry_put (hl : level < lookupTableLevels) (l : ℕ) (d : Direction) :
    (t.put level direction c).entry l d =
      if l = level ∧ d = direction then some c else t.entry l d := by
  by_cases h : l < lookupTableLevels
  · cases d <;> cases direction <;>
      simp [entry,put,side,h,Vector.getElem_setIfInBounds,eq_comm (a := level)]
  · have hne : l ≠ level := by rintro rfl; exact h hl
    simp [entry,h,hne]

theorem entry_clear (hl : level < lookupTableLevels) (l : ℕ) (d : Direction) :
    (t.clear level direction).entry l d =
      if l = level ∧ d = direction then none else t.entry l d := by
  by_cases h : l < lookupTableLevels
  · cases d <;> cases direction <;>
      simp [entry,clear,side,h,Vector.getElem_setIfInBounds,eq_comm (a := level)]
  · have hne : l ≠ level := by rintro rfl; exact h hl
    simp [entry,h]

theorem put_entry_self (h : t.entry level direction = some c)
    (l : ℕ) (d : Direction) :
    t.entry l d = if l = level ∧ d = direction then some c else t.entry l d := by
  split
  · rename_i hh
    rw [hh.1,hh.2,h]
  · rfl

/-- The two things `try_link` can do at a real level: forward to an entry that sits
strictly between, or leave the candidate in the slot and every other slot alone. -/
theorem tryLink_cases (t : ArrayLookupTable) (level : ℕ) (direction : Direction) (c : Identity)
    (hl : level < lookupTableLevels) :
    (∃ e, t.entry level direction = some e ∧ direction.lt e.id c.id ∧
      t.tryLink level direction c = .ok (.forward e,t)) ∨
    (∃ t', t.tryLink level direction c = .ok (.linkedDirectly,t') ∧
      (∀ e, t.entry level direction = some e → direction.le c.id e.id) ∧
      ∀ l d, t'.entry l d = if l = level ∧ d = direction then some c else t.entry l d) := by
  have hentry : (t.side direction)[level] = t.entry level direction := by simp [entry,hl]
  cases he : t.entry level direction with
  | none =>
    right
    refine ⟨t.put level direction c,?_,by simp,entry_put hl⟩
    simp [tryLink,tryRelink,hl,hentry,he]
  | some e =>
    by_cases hec : e = c
    · subst hec
      right
      refine ⟨t,?_,by simp,put_entry_self he⟩
      cases direction <;> simp [tryLink,tryRelink,hl,hentry,he]
    · by_cases hlt : direction.lt e.id c.id
      · left
        refine ⟨e,rfl,hlt,?_⟩
        cases direction <;> simp only [Direction.lt] at hlt <;>
          simp [tryLink,tryRelink,hl,hentry,he,hec,hlt]
      · right
        refine ⟨t.put level direction c,?_,?_,entry_put hl⟩
        · cases direction <;> simp only [Direction.lt] at hlt <;>
            simp [tryLink,tryRelink,hl,hentry,he,hec,hlt]
        · rintro _ ⟨rfl⟩
          exact Direction.not_lt.mp hlt

end ArrayLookupTable

end SkipGraph
