import SkipGraph.Honest

/-!
# The level-0 list

`Listed s I` says that the level-0 slots of the nodes `I` are those of the sorted
doubly linked list of `I`. `row` builds such systems.
-/

namespace SkipGraph

open StrictOrder

namespace Sys

variable {s t : Sys} {I : Finset Identifier} {x y : Identifier} {d : Direction}

/-- The level-0 slots of `I` hold exactly the predecessor and successor within `I`. -/
structure Listed (s : Sys) (I : Finset Identifier) : Prop where
  next : ∀ x ∈ I, ∀ d e, s.entry x 0 d = some e → IsNext d.lt I x e.id
  last : ∀ x ∈ I, ∀ d, s.entry x 0 d = none → IsLast d.lt I x

theorem isNext_opposite (h : IsNext d.lt I x y) (hx : x ∈ I) : IsNext d.opposite.lt I y x := by
  refine ⟨hx,Direction.opposite_lt.mpr h.after,fun z hz hyz hzx => ?_⟩
  rw [Direction.opposite_lt] at hyz hzx
  exact h.first z hz hzx hyz

theorem Listed.entry_of_lt (h : s.Listed I) (hx : x ∈ I) (hy : y ∈ I) (hlt : d.lt x y) :
    ∃ e, s.entry x 0 d = some e ∧ IsNext d.lt I x e.id := by
  cases he : s.entry x 0 d with
  | none => exact absurd hlt (h.last x hx d he y hy)
  | some e => exact ⟨e,rfl,h.next x hx d e he⟩

theorem Listed.mirror (h : s.Listed I) (hx : x ∈ I) {e : Identity}
    (he : s.entry x 0 d = some e) : ∃ f, s.entry e.id 0 d.opposite = some f ∧ f.id = x := by
  have hn := h.next x hx d e he
  have hback := isNext_opposite hn hx
  obtain ⟨f,hf,hfn⟩ := h.entry_of_lt hn.mem hx hback.after
  exact ⟨f,hf,hfn.unique hback⟩

def rowIdentity (x : Identifier) : Identity := ⟨x,⟨Vector.replicate _ 0⟩,⟨"",""⟩⟩

def rowNext (ids : List Identifier) (x : Identifier) : Direction → Option Identifier
  | .left => Extremum.maxByKey id (ids.filter fun y => decide (y < x))
  | .right => Extremum.minByKey id (ids.filter fun y => decide (x < y))

def rowTable (ids : List Identifier) (x : Identifier) : ArrayLookupTable :=
  let t := (rowNext ids x .left).elim .new fun y => ArrayLookupTable.new.put 0 .left (rowIdentity y)
  (rowNext ids x .right).elim t fun y => t.put 0 .right (rowIdentity y)

/-- The level-0 list of the nodes `linked`, beside nodes `fresh` with empty tables. -/
def row (linked fresh : List Identifier) : Sys where
  members := (linked++fresh).toFinset
  node x := BaseNode.new ⟨x,⟨Vector.replicate _ 0⟩,if x ∈ linked then rowTable linked x else .new⟩
    ⟨"",""⟩
  inflight := []
  node_id _ := rfl

theorem rowNext_some {ids : List Identifier} (h : rowNext ids x d = some y) :
    IsNext d.lt ids.toFinset x y := by
  cases d with
  | left =>
    obtain ⟨hm,hmax⟩ := Extremum.maxByKey_eq_some h
    simp only [List.mem_filter,decide_eq_true_eq] at hm hmax
    refine ⟨by simpa using hm.1,hm.2,fun z hz hxz hzy => ?_⟩
    exact absurd hzy (not_lt.mpr (hmax z ⟨by simpa using hz,hxz⟩))
  | right =>
    obtain ⟨hm,hmin⟩ := Extremum.minByKey_eq_some h
    simp only [List.mem_filter,decide_eq_true_eq] at hm hmin
    refine ⟨by simpa using hm.1,hm.2,fun z hz hxz hzy => ?_⟩
    exact absurd hzy (not_lt.mpr (hmin z ⟨by simpa using hz,hxz⟩))

theorem rowNext_none {ids : List Identifier} (h : rowNext ids x d = none) :
    IsLast d.lt ids.toFinset x := by
  intro z hz hxz
  cases d with
  | left =>
    exact List.filter_eq_nil_iff.mp (Extremum.maxByKey_eq_none.mp h) z (by simpa using hz)
      (decide_eq_true hxz)
  | right =>
    exact List.filter_eq_nil_iff.mp (Extremum.minByKey_eq_none.mp h) z (by simpa using hz)
      (decide_eq_true hxz)

theorem rowTable_entry (ids : List Identifier) (x : Identifier) (l : ℕ) (d : Direction) :
    (rowTable ids x).entry l d = if l = 0 then (rowNext ids x d).map rowIdentity else none := by
  have h0 : 0 < lookupTableLevels := by decide
  cases hL : rowNext ids x .left <;> cases hR : rowNext ids x .right <;> cases d <;>
    by_cases hl : l = 0 <;>
    simp [rowTable,hL,hR,hl,ArrayLookupTable.entry_put h0]

theorem row_entry (linked fresh : List Identifier) (x : Identifier) (l : ℕ) (d : Direction) :
    (row linked fresh).entry x l d =
      if l = 0 ∧ x ∈ linked then (rowNext linked x d).map rowIdentity else none := by
  by_cases hx : x ∈ linked
  · simp [entry,row,BaseNode.entry,BaseNode.new,hx,rowTable_entry]
  · simp [entry,row,BaseNode.entry,BaseNode.new,hx]

theorem listed_row (linked fresh : List Identifier) :
    (row linked fresh).Listed linked.toFinset where
  next x hx d e he := by
    rw [row_entry,if_pos ⟨rfl,by simpa using hx⟩] at he
    obtain ⟨y,hy,rfl⟩ := Option.map_eq_some_iff.mp he
    exact rowNext_some hy
  last x hx d he := by
    rw [row_entry,if_pos ⟨rfl,by simpa using hx⟩,Option.map_eq_none_iff] at he
    exact rowNext_none he

theorem honest_row (linked fresh : List Identifier) : (row linked fresh).Honest := by
  have hentry : ∀ x l d e, (row linked fresh).entry x l d = some e →
      l = 0 ∧ ∃ y, e = rowIdentity y ∧ IsNext d.lt linked.toFinset x y := by
    intro x l d e he
    rw [row_entry] at he
    split at he
    · rename_i hl
      obtain ⟨y,hy,rfl⟩ := Option.map_eq_some_iff.mp he
      exact ⟨hl.1,y,rfl,rowNext_some hy⟩
    · simp at he
  refine ⟨fun x _ l d e he => ?_,fun x _ l d e he => ?_,by simp [row]⟩
  · obtain ⟨rfl,y,rfl,hy⟩ := hentry x l d e he
    exact ⟨hy.after,Nat.zero_le _⟩
  · obtain ⟨rfl,y,rfl,hy⟩ := hentry x l d e he
    have hmem : y ∈ linked := by simpa using hy.mem
    exact ⟨by simp [row,rowIdentity,hmem],rfl⟩

end Sys

end SkipGraph
