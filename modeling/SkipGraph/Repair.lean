import SkipGraph.Core
import SkipGraph.StrictOrder
import SkipGraph.Transition

/-!
# Relinking a table

A repair sweep has many claimants assert the links they believe to hold, among first-time
link requests. What the sweep leaves behind does not depend on the order, a second sweep
writes nothing, and whatever was evicted was reported.
-/

namespace SkipGraph

open Transition StrictOrder

structure Claim where
  level : ℕ
  direction : Direction
  identity : Identity
  deriving DecidableEq, Repr

/-- A first-time link request or a repair probe. -/
inductive Offer
  | link (claim : Claim)
  | relink (claim : Claim)
  deriving DecidableEq, Repr

def Offer.claim : Offer → Claim
  | link claim => claim
  | relink claim => claim

inductive Decision
  | link (outcome : LinkOutcome)
  | relink (outcome : RelinkOutcome)
  deriving DecidableEq, Repr

namespace ArrayLookupTable

variable {t : ArrayLookupTable} {level : ℕ} {direction : Direction} {c : Identity}

theorem tryRelink_cases (t : ArrayLookupTable) (hl : level < lookupTableLevels)
    (direction : Direction) (c : Identity) :
    (∃ e, t.entry level direction = some e ∧ direction.lt e.id c.id ∧
      t.tryRelink level direction c = .ok (.forward e,t)) ∨
    (t.entry level direction = some c ∧
      t.tryRelink level direction c = .ok (.alreadyConsistent,t)) ∨
    ((∀ e, t.entry level direction = some e → e ≠ c ∧ ¬ direction.lt e.id c.id) ∧
      t.tryRelink level direction c =
        .ok (.relinked (t.entry level direction),t.put level direction c)) := by
  have hentry : (t.side direction)[level] = t.entry level direction := by simp [entry,hl]
  cases he : t.entry level direction with
  | none =>
    right; right
    refine ⟨by simp,?_⟩
    simp [tryRelink,hl,hentry,he]
  | some e =>
    by_cases hec : e = c
    · subst hec
      right; left
      refine ⟨rfl,?_⟩
      cases direction <;> simp [tryRelink,hl,hentry,he]
    · by_cases hlt : direction.lt e.id c.id
      · left
        refine ⟨e,rfl,hlt,?_⟩
        cases direction <;> simp_all [tryRelink,Direction.lt]
      · right; right
        refine ⟨by rintro _ ⟨⟩; exact ⟨hec,hlt⟩,?_⟩
        cases direction <;> simp_all [tryRelink,Direction.lt]

end ArrayLookupTable

namespace BaseCore

variable {core : BaseCore} {l : ℕ} {d : Direction} {claim : Claim}

def relink (core : BaseCore) (claim : Claim) : Except Error RelinkOutcome × BaseCore :=
  match core.tryRelink claim.level claim.direction claim.identity with
  | .ok (outcome,core') => (.ok outcome,core')
  | .error e => (.error e,core)

def link (core : BaseCore) (claim : Claim) : Except Error LinkOutcome × BaseCore :=
  match core.tryLink claim.level claim.direction claim.identity with
  | .ok (outcome,core') => (.ok outcome,core')
  | .error e => (.error e,core)

def offer (core : BaseCore) : Offer → Except Error Decision × BaseCore
  | .link claim => ((core.link claim).1.map .link,(core.link claim).2)
  | .relink claim => ((core.relink claim).1.map .relink,(core.relink claim).2)

/-- The three decisions, and the refusal of a level that the table does not have. -/
theorem relink_cases (core : BaseCore) (claim : Claim) :
    (lookupTableLevels ≤ claim.level ∧
      core.relink claim = (.error (.levelOutOfRange claim.level),core)) ∨
    claim.level < lookupTableLevels ∧
    ((∃ e, core.lt.entry claim.level claim.direction = some e ∧
        claim.direction.lt e.id claim.identity.id ∧ core.relink claim = (.ok (.forward e),core)) ∨
      (core.lt.entry claim.level claim.direction = some claim.identity ∧
        core.relink claim = (.ok .alreadyConsistent,core)) ∨
      ((∀ e, core.lt.entry claim.level claim.direction = some e →
          e ≠ claim.identity ∧ ¬ claim.direction.lt e.id claim.identity.id) ∧
        core.relink claim = (.ok (.relinked (core.lt.entry claim.level claim.direction)),
          { core with lt := core.lt.put claim.level claim.direction claim.identity }))) := by
  by_cases hl : claim.level < lookupTableLevels
  · refine .inr ⟨hl,?_⟩
    rcases core.lt.tryRelink_cases hl claim.direction claim.identity with
      ⟨e,he,hlt,h⟩ | ⟨he,h⟩ | ⟨hne,h⟩
    · exact .inl ⟨e,he,hlt,by simp [relink,tryRelink,h,Except.map]⟩
    · exact .inr (.inl ⟨he,by simp [relink,tryRelink,h,Except.map]⟩)
    · exact .inr (.inr ⟨hne,by simp [relink,tryRelink,h,Except.map]⟩)
  · refine .inl ⟨Nat.not_lt.mp hl,?_⟩
    simp [relink,tryRelink,ArrayLookupTable.tryRelink,hl,Except.map]

theorem link_core (core : BaseCore) (claim : Claim) :
    (core.link claim).2 = (core.relink claim).2 := by
  unfold link relink tryLink tryRelink ArrayLookupTable.tryLink
  cases core.lt.tryRelink claim.level claim.direction claim.identity with
  | error e => rfl
  | ok r =>
    obtain ⟨outcome,t⟩ := r
    cases outcome <;> rfl

theorem offer_core (core : BaseCore) (o : Offer) : (core.offer o).2 = (core.relink o.claim).2 := by
  cases o with
  | link claim => exact core.link_core claim
  | relink claim => rfl

/-- A probe leaves the nearer of the entry and the claimant in its slot. -/
theorem relink_entry (core : BaseCore) (claim : Claim) (hl : l < lookupTableLevels)
    (d : Direction) : (core.relink claim).2.lt.entry l d =
      if claim.level = l ∧ claim.direction = d then
        keepNearer d.lt Identity.id (core.lt.entry l d) claim.identity
      else core.lt.entry l d := by
  by_cases hs : claim.level = l ∧ claim.direction = d
  · obtain ⟨rfl,rfl⟩ := hs
    rcases core.relink_cases claim with ⟨hge,-⟩ | ⟨-,⟨e,he,hlt,h⟩ | ⟨he,h⟩ | ⟨hne,h⟩⟩
    · omega
    · simp [h,he,keepNearer,hlt]
    · simp [h,he,keepNearer]
    · rw [h]
      simp only [ArrayLookupTable.entry_put hl,and_self,if_true]
      cases he : core.lt.entry claim.level claim.direction with
      | none => rfl
      | some e => simp [keepNearer,(hne e he).2]
  · rw [if_neg hs]
    rcases core.relink_cases claim with ⟨-,h⟩ | ⟨hl',⟨e,-,-,h⟩ | ⟨-,h⟩ | ⟨-,h⟩⟩
    · rw [h]
    · rw [h]
    · rw [h]
    · rw [h]
      have hs' : ¬ (l = claim.level ∧ d = claim.direction) := fun h => hs ⟨h.1.symm,h.2.symm⟩
      simp only [ArrayLookupTable.entry_put hl',if_neg hs']

def offered (offers : List Offer) (l : ℕ) (d : Direction) : List Identity :=
  offers.filterMap fun o =>
    if o.claim.level = l ∧ o.claim.direction = d then some o.claim.identity else none

/-- What a slot has held and was offered. -/
def Seen (core : BaseCore) (offers : List Offer) (l : ℕ) (d : Direction) : Set Identity :=
  {c | core.lt.entry l d = some c} ∪ {c | c ∈ offered offers l d}

theorem execute_entry (core : BaseCore) (offers : List Offer) (hl : l < lookupTableLevels)
    (d : Direction) : (execute offer core offers).2.lt.entry l d =
      (offered offers l d).foldl (keepNearer d.lt Identity.id) (core.lt.entry l d) := by
  induction offers generalizing core with
  | nil => rfl
  | cons o offers ih =>
    simp only [execute,ih,offer_core,relink_entry core o.claim hl d,offered,List.filterMap_cons]
    split <;> simp_all

theorem execute_isNearest (core : BaseCore) (offers : List Offer) (hl : l < lookupTableLevels)
    (d : Direction) : IsNearest d.lt Identity.id (core.Seen offers l d)
      ((execute offer core offers).2.lt.entry l d) := by
  have hentry : IsNearest d.lt Identity.id {c | core.lt.entry l d = some c} (core.lt.entry l d) :=
    isNearest_toSet _
  rw [execute_entry core offers hl d]
  exact hentry.foldl (offered offers l d)

theorem relink_identity (core : BaseCore) (claim : Claim) :
    (core.relink claim).2.id = core.id ∧ (core.relink claim).2.memVec = core.memVec := by
  rcases core.relink_cases claim with ⟨-,h⟩ | ⟨-,⟨e,-,-,h⟩ | ⟨-,h⟩ | ⟨-,h⟩⟩ <;> simp [h]

theorem execute_identity (core : BaseCore) (offers : List Offer) :
    (execute offer core offers).2.id = core.id ∧
      (execute offer core offers).2.memVec = core.memVec := by
  induction offers generalizing core with
  | nil => exact ⟨rfl,rfl⟩
  | cons o offers ih =>
    have hrest := ih (core.offer o).2
    rw [offer_core] at hrest
    obtain ⟨hid,hmv⟩ := core.relink_identity o.claim
    simp only [execute,offer_core]
    exact ⟨hrest.1.trans hid,hrest.2.trans hmv⟩

theorem execute_ext {core core' : BaseCore} {offers offers' : List Offer}
    (hid : core'.id = core.id) (hmv : core'.memVec = core.memVec)
    (h : ∀ l < lookupTableLevels, ∀ d, (execute offer core' offers').2.lt.entry l d =
      (execute offer core offers).2.lt.entry l d) :
    (execute offer core' offers').2 = (execute offer core offers).2 := by
  have hlt : (execute offer core' offers').2.lt = (execute offer core offers).2.lt := by
    apply ArrayLookupTable.ext_entry
    intro l d
    by_cases hl : l < lookupTableLevels
    · exact h l hl d
    · simp [ArrayLookupTable.entry,hl]
  obtain ⟨hi,hm⟩ := execute_identity core offers
  obtain ⟨hi',hm'⟩ := execute_identity core' offers'
  have heta : ∀ c : BaseCore, c = ⟨c.id,c.memVec,c.lt⟩ := fun _ => rfl
  rw [heta (execute offer core' offers').2,heta (execute offer core offers).2,hlt,hi,hm,hi',hm',
    hid,hmv]

theorem offer_settled {o : Offer} (h : o.claim.level < lookupTableLevels →
      ∃ e, core.lt.entry o.claim.level o.claim.direction = some e ∧
        (e = o.claim.identity ∨ o.claim.direction.lt e.id o.claim.identity.id)) :
    (core.offer o).2 = core ∧ ∀ evicted, (core.offer o).1 ≠ .ok (.relink (.relinked evicted)) := by
  have hrel : (core.relink o.claim).2 = core ∧
      ∀ evicted, (core.relink o.claim).1 ≠ .ok (.relinked evicted) := by
    rcases core.relink_cases o.claim with ⟨-,h'⟩ | ⟨hl,⟨e,-,-,h'⟩ | ⟨-,h'⟩ | ⟨hne,-⟩⟩
    · simp [h']
    · simp [h']
    · simp [h']
    · obtain ⟨e,he,hor⟩ := h hl
      obtain ⟨hne,hnlt⟩ := hne e he
      exact absurd hor (not_or.mpr ⟨hne,hnlt⟩)
  refine ⟨(core.offer_core o).trans hrel.1,fun evicted he => ?_⟩
  cases o with
  | link claim =>
    simp only [offer] at he
    cases hr : (core.link claim).1 <;> simp [hr,Except.map] at he
  | relink claim =>
    simp only [offer] at he
    cases hr : (core.relink claim).1 with
    | error e => simp [hr,Except.map] at he
    | ok outcome =>
      obtain rfl : outcome = .relinked evicted := by simpa [hr,Except.map] using he
      exact hrel.2 evicted hr

/-- Where no two identities share an identifier, one pass over the offers settles the table,
in whatever order they come: every slot holds the nearest of what it has held and was offered.
Offering any of them again, any number of times, writes nothing and evicts nobody. -/
theorem repair_sweep_settles (core : BaseCore) (offers : List Offer)
    (hid : ∀ l d, Set.InjOn Identity.id (core.Seen offers l d)) :
    let settled := (execute offer core offers).2
    (∀ l < lookupTableLevels, ∀ d,
      IsNearest d.lt Identity.id (core.Seen offers l d) (settled.lt.entry l d)) ∧
    (∀ offers', (∀ o, o ∈ offers' ↔ o ∈ offers) → (execute offer core offers').2 = settled) ∧
    ∀ again, (∀ o ∈ again, o ∈ offers) → (execute offer settled again).2 = settled ∧
      ∀ r ∈ (execute offer settled again).1, ∀ evicted, r ≠ .ok (.relink (.relinked evicted)) := by
  intro settled
  have hnear : ∀ l < lookupTableLevels, ∀ d,
      IsNearest d.lt Identity.id (core.Seen offers l d) (settled.lt.entry l d) :=
    fun l hl d => execute_isNearest core offers hl d
  refine ⟨hnear,fun offers' hperm => ?_,fun again hagain => ?_⟩
  · refine execute_ext rfl rfl fun l hl d => ?_
    have hseen : core.Seen offers' l d = core.Seen offers l d := by
      ext c
      simp [Seen,offered,hperm]
    have h := execute_isNearest core offers' hl d
    rw [hseen] at h
    exact h.unique (hid l d) (hnear l hl d)
  · have hstep : ∀ o ∈ offers, (settled.offer o).2 = settled ∧
        ∀ evicted, (settled.offer o).1 ≠ .ok (.relink (.relinked evicted)) := by
      intro o ho
      refine offer_settled fun hl => ?_
      have hmem : o.claim.identity ∈ core.Seen offers o.claim.level o.claim.direction :=
        .inr (List.mem_filterMap.mpr ⟨o,ho,by simp⟩)
      have h := hnear _ hl o.claim.direction
      cases he : settled.lt.entry o.claim.level o.claim.direction with
      | none =>
        rw [he] at h
        have hempty : core.Seen offers o.claim.level o.claim.direction = ∅ := h
        simp [hempty] at hmem
      | some e =>
        rw [he] at h
        refine ⟨e,rfl,?_⟩
        rcases trichotomous_of o.claim.direction.lt e.id o.claim.identity.id with hlt | heq | hgt
        · exact .inr hlt
        · exact .inl (hid _ _ h.1 hmem heq)
        · exact absurd hgt (h.2 _ hmem)
    induction again with
    | nil => exact ⟨rfl,by simp [execute]⟩
    | cons o again ih =>
      obtain ⟨hcore,hout⟩ := hstep o (hagain o (by simp))
      obtain ⟨hc,hr⟩ := ih fun o' ho' => hagain o' (by simp [ho'])
      simp only [execute,hcore]
      refine ⟨hc,fun r hr' => ?_⟩
      rcases List.mem_cons.mp hr' with rfl | hr'
      · exact hout
      · exact hr r hr'

/-- Node 5 is offered node 9 and then node 7, which evicts node 9; another pass does nothing. -/
theorem repair_sweep_settles_seven :
    let core : BaseCore := ⟨.ofByte 5,⟨Vector.replicate _ 0⟩,.new⟩
    let c (b : UInt8) : Identity := ⟨.ofByte b,⟨Vector.replicate _ 0⟩,⟨"",""⟩⟩
    let offers : List Offer := [.link ⟨0,.right,c 9⟩,.relink ⟨0,.right,c 7⟩]
    let settled := (execute offer core offers).2
    settled.lt.entry 0 .right = some (c 7) ∧ (execute offer settled offers).2 = settled := by
  intro core c offers settled
  have hid : ∀ l d, Set.InjOn Identity.id (core.Seen offers l d) := by
    intro l d
    have hseen : ∀ x ∈ core.Seen offers l d, x = c 9 ∨ x = c 7 := by
      rintro x (hx | hx)
      · simp [core] at hx
      · obtain ⟨o,ho,hx⟩ := List.mem_filterMap.mp hx
        split at hx
        · obtain rfl := Option.some.inj hx
          rcases List.mem_cons.mp ho with rfl | ho
          · exact .inl rfl
          · obtain rfl := List.mem_singleton.mp ho
            exact .inr rfl
        · simp at hx
    intro x hx y hy hxy
    rcases hseen x hx with rfl | rfl <;> rcases hseen y hy with rfl | rfl
    · rfl
    · exact absurd hxy (by decide)
    · exact absurd hxy (by decide)
    · rfl
  exact ⟨by decide +kernel,((repair_sweep_settles core offers hid).2.2 offers fun _ h => h).1⟩

def installs (l : ℕ) (d : Direction) (x : Identity) : Claim × Except Error RelinkOutcome → Bool
  | (claim,.ok (.relinked _)) => decide (claim.level = l ∧ claim.direction = d ∧ claim.identity = x)
  | _ => false

def evicts (l : ℕ) (d : Direction) (x : Identity) : Claim × Except Error RelinkOutcome → Bool
  | (claim,.ok (.relinked (some e))) => decide (claim.level = l ∧ claim.direction = d ∧ e = x)
  | _ => false

/-- One probe moves the claimant in and reports what it has moved out. -/
theorem relink_balance (core : BaseCore) (claim : Claim) (l : ℕ) (d : Direction) (x : Identity) :
    (core.lt.entry l d).toList.count x +
        (if installs l d x (claim,(core.relink claim).1) then 1 else 0) =
      ((core.relink claim).2.lt.entry l d).toList.count x +
        (if evicts l d x (claim,(core.relink claim).1) then 1 else 0) := by
  rcases core.relink_cases claim with ⟨-,h⟩ | ⟨hl,⟨e,-,-,h⟩ | ⟨-,h⟩ | ⟨-,h⟩⟩
  · simp [h,installs,evicts]
  · simp [h,installs,evicts]
  · simp [h,installs,evicts]
  · rw [h]
    simp only [ArrayLookupTable.entry_put hl]
    by_cases hs : claim.level = l ∧ claim.direction = d
    · obtain ⟨rfl,rfl⟩ := hs
      cases he : core.lt.entry claim.level claim.direction with
      | none => simp [installs,evicts,List.count_singleton]
      | some e => simp [installs,evicts,List.count_singleton,Nat.add_comm]
    · have hs' : ¬ (l = claim.level ∧ d = claim.direction) := fun h => hs ⟨h.1.symm,h.2.symm⟩
      rw [if_neg hs']
      cases he : core.lt.entry claim.level claim.direction <;> grind [installs,evicts]

/-- Over any sequence of probes, from any table, nobody is lost and nobody is reported twice:
for every slot and identity, what was there and what was installed is what is there and what
was reported as evicted. -/
theorem evictions_accounted (core : BaseCore) (claims : List Claim) (l : ℕ) (d : Direction)
    (x : Identity) :
    let r := execute relink core claims
    (core.lt.entry l d).toList.count x + (claims.zip r.1).countP (installs l d x) =
      (r.2.lt.entry l d).toList.count x + (claims.zip r.1).countP (evicts l d x) := by
  induction claims generalizing core with
  | nil => simp [execute]
  | cons claim claims ih =>
    have hone := core.relink_balance claim l d x
    have hrest := ih (core.relink claim).2
    simp only [execute,List.zip_cons_cons,List.countP_cons] at hrest ⊢
    omega

end BaseCore

end SkipGraph
