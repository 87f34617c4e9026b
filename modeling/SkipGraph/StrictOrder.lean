import Mathlib.Order.RelClasses
import Mathlib.Data.Finset.Card
import Mathlib.Data.Finset.Filter
import Mathlib.Data.Fintype.EquivFin
import Mathlib.Order.WellFounded

/-!
# Neighbours in a finite set under a strict total order

The order is an arbitrary relation `r`, so that one development serves both
orientations of a line: the facts about `Function.swap r` are the facts about `r`.
-/

namespace StrictOrder

variable {α : Type*} {r : α → α → Prop} {S : Finset α} {x y z : α}

/-- `y` is the first member of `S` that `r` places after `x`. -/
structure IsNext (r : α → α → Prop) (S : Finset α) (x y : α) : Prop where
  mem : y ∈ S
  after : r x y
  first : ∀ z ∈ S, r x z → ¬ r z y

/-- No member of `S` lies after `x`. -/
def IsLast (r : α → α → Prop) (S : Finset α) (x : α) : Prop := ∀ z ∈ S, ¬ r x z

instance [DecidableRel r] : Decidable (IsLast r S x) :=
  inferInstanceAs (Decidable (∀ z ∈ S, ¬ r x z))

def between (r : α → α → Prop) [DecidableRel r] (S : Finset α) (x y : α) : Finset α :=
  S.filter fun z => r x z ∧ r z y

def past (r : α → α → Prop) [DecidableRel r] (S : Finset α) (x : α) : Finset α := S.filter (r x)

theorem IsNext.insert_of_not_between [DecidableEq α] (h : IsNext r S x y)
    (hz : r x z → ¬ r z y) : IsNext r (insert z S) x y := by
  refine ⟨Finset.mem_insert_of_mem h.mem,h.after,fun w hw hxw => ?_⟩
  rcases Finset.mem_insert.mp hw with rfl | hw
  · exact hz hxw
  · exact h.first w hw hxw

theorem IsLast.insert [DecidableEq α] (h : IsLast r S x) (hz : ¬ r x z) :
    IsLast r (insert z S) x := by
  intro w hw
  rcases Finset.mem_insert.mp hw with rfl | hw
  · exact hz
  · exact h w hw

section Total

variable [IsStrictTotalOrder α r]

theorem rel_of_not_rel (h : ¬ r x y) (hne : x ≠ y) : r y x := by
  rcases trichotomous_of r x y with hh | hh | hh
  · exact absurd hh h
  · exact absurd hh hne
  · exact hh

theorem IsNext.unique (h : IsNext r S x y) (h' : IsNext r S x z) : y = z := by
  by_contra hne
  have hyz : ¬ r y z := h'.first y h.mem h.after
  exact h.first z h'.mem h'.after (rel_of_not_rel hyz hne)

/-- A finite set has a nearest member on every side that has a member at all. -/
theorem exists_isNext (h : ¬ IsLast r S x) : ∃ y, IsNext r S x y := by
  classical
  simp only [IsLast,not_forall,not_not] at h
  obtain ⟨z,hz,hxz⟩ := h
  have hne : (S.filter (r x)).Nonempty := ⟨z,by simp [hz,hxz]⟩
  have hwf : WellFounded fun a b : {a // a ∈ S.filter (r x)} => r a.1 b.1 :=
    haveI : IsStrictOrder {a // a ∈ S.filter (r x)} fun a b => r a.1 b.1 :=
      { irrefl := fun a => irrefl_of r a.1
        trans := fun a b c => trans_of r }
    Finite.wellFounded_of_trans_of_irrefl _
  obtain ⟨m,-,hm⟩ := hwf.has_min Set.univ ⟨⟨z,by simp [hz,hxz]⟩,trivial⟩
  have hmem := Finset.mem_filter.mp m.2
  refine ⟨m.1,hmem.1,hmem.2,fun w hw hxw hwm => ?_⟩
  exact hm ⟨w,Finset.mem_filter.mpr ⟨hw,hxw⟩⟩ trivial hwm

theorem card_between_lt [DecidableRel r] (hz : z ∈ S) (hxz : r x z) (hzy : r z y) :
    (between r S z y).card < (between r S x y).card := by
  apply Finset.card_lt_card
  refine Finset.ssubset_iff_subset_ne.mpr ⟨?_,?_⟩
  · intro w hw
    obtain ⟨hwS,hzw,hwy⟩ := Finset.mem_filter.mp hw
    exact Finset.mem_filter.mpr ⟨hwS,trans_of r hxz hzw,hwy⟩
  · intro he
    have hmem : z ∈ between r S x y := Finset.mem_filter.mpr ⟨hz,hxz,hzy⟩
    rw [← he] at hmem
    exact irrefl_of r z (Finset.mem_filter.mp hmem).2.1

theorem card_past_lt [DecidableRel r] (hz : z ∈ S) (hxz : r x z) :
    (past r S z).card < (past r S x).card := by
  apply Finset.card_lt_card
  refine Finset.ssubset_iff_subset_ne.mpr ⟨?_,?_⟩
  · intro w hw
    obtain ⟨hwS,hzw⟩ := Finset.mem_filter.mp hw
    exact Finset.mem_filter.mpr ⟨hwS,trans_of r hxz hzw⟩
  · intro he
    have hmem : z ∈ past r S x := Finset.mem_filter.mpr ⟨hz,hxz⟩
    rw [← he] at hmem
    exact irrefl_of r z (Finset.mem_filter.mp hmem).2

theorem card_past_lt_card [DecidableRel r] (hx : x ∈ S) : (past r S x).card < S.card := by
  apply Finset.card_lt_card
  refine Finset.filter_ssubset.mpr ⟨x,hx,irrefl_of r x⟩

theorem isNext_insert [DecidableEq α] (h : IsNext (Function.swap r) S z x) :
    IsNext r (insert z S) x z := by
  refine ⟨Finset.mem_insert_self z S,h.after,fun w hw hxw hwz => ?_⟩
  rcases Finset.mem_insert.mp hw with rfl | hw
  · exact irrefl_of r w hwz
  · exact h.first w hw hwz hxw

end Total

section Nearest

variable {β : Type*} {key : β → α} {A B : Set β} {o o' : Option β} {c : β}

/-- `o` is a member of `A` with no other member before it, and nothing if `A` is empty. -/
def IsNearest (r : α → α → Prop) (key : β → α) (A : Set β) : Option β → Prop
  | none => A = ∅
  | some c => c ∈ A ∧ ∀ e ∈ A, ¬ r (key e) (key c)

/-- Keep what is before the newcomer, else take the newcomer. -/
def keepNearer (r : α → α → Prop) [DecidableRel r] (key : β → α) (o : Option β) (c : β) :
    Option β :=
  match o with
  | some e => if r (key e) (key c) then some e else some c
  | none => some c

theorem isNearest_toSet (o : Option β) [Std.Irrefl r] : IsNearest r key {c | o = some c} o := by
  cases o with
  | none => simp [IsNearest]
  | some c => simp [IsNearest,irrefl_of r (key c)]

variable [IsStrictTotalOrder α r]

theorem IsNearest.unique (hinj : Set.InjOn key A) (h : IsNearest r key A o)
    (h' : IsNearest r key A o') : o = o' := by
  cases o with
  | none =>
    cases o' with
    | none => rfl
    | some c =>
      obtain rfl : A = ∅ := h
      exact absurd h'.1 (Set.notMem_empty c)
  | some e =>
    cases o' with
    | none =>
      obtain rfl : A = ∅ := h'
      exact absurd h.1 (Set.notMem_empty e)
    | some c =>
      have hk : key e = key c := by
        rcases trichotomous_of r (key e) (key c) with hh | hh | hh
        · exact absurd hh (h'.2 e h.1)
        · exact hh
        · exact absurd hh (h.2 c h'.1)
      rw [hinj h.1 h'.1 hk]

variable [DecidableRel r]

theorem IsNearest.keep (h : IsNearest r key A o) (c : β) :
    IsNearest r key (insert c A) (keepNearer r key o c) := by
  cases o with
  | none =>
    obtain rfl : A = ∅ := h
    exact ⟨by simp,by simp [irrefl_of r (key c)]⟩
  | some e =>
    obtain ⟨hmem,hfirst⟩ := h
    by_cases hr : r (key e) (key c)
    · simp only [keepNearer,hr,if_true]
      refine ⟨Set.mem_insert_of_mem c hmem,fun x hx => ?_⟩
      rcases hx with rfl | hx
      · exact asymm_of r hr
      · exact hfirst x hx
    · simp only [keepNearer,hr,if_false]
      refine ⟨Set.mem_insert c A,fun x hx hxc => ?_⟩
      rcases hx with rfl | hx
      · exact irrefl_of r _ hxc
      · rcases trichotomous_of r (key e) (key c) with hh | hh | hh
        · exact hr hh
        · exact hfirst x hx (hh ▸ hxc)
        · exact hfirst x hx (trans_of r hxc hh)

/-- Folding in newcomers one by one ends with the nearest of all. -/
theorem IsNearest.foldl (h : IsNearest r key A o) (cs : List β) :
    IsNearest r key (A ∪ {c | c ∈ cs}) (cs.foldl (keepNearer r key) o) := by
  induction cs generalizing A o with
  | nil => simpa using h
  | cons c cs ih =>
    have hh := ih (h.keep c)
    have he : insert c A ∪ {x | x ∈ cs} = A ∪ {x | x ∈ c::cs} := by
      ext x
      simp only [Set.mem_union,Set.mem_insert_iff,Set.mem_ofPred_eq,List.mem_cons]
      tauto
    rwa [he] at hh

end Nearest

end StrictOrder
